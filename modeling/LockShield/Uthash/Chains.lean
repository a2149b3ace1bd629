import LockShield.Uthash.Macros
import Mathlib.Algebra.BigOperators.Group.Finset.Basic
import Mathlib.Algebra.BigOperators.Intervals

/-!
# The buckets of a table

`Chained` says that the chains hold certain elements, each in the bucket of its
hash value, with the right links, heads and counts. Putting an element into a
bucket and taking one out keep it. An expansion is a sequence of such pushes
into fresh buckets: it reads the old links of the elements that have not moved
yet, and those are the ones no push has touched.

## Results

* `Chained.congr`  — only the set of elements and their hash values matter.
* `Chained.push`, `Chained.remove` — an element goes into its bucket, or out of it.
* `excess_le`      — no more elements are beyond the ideal length of a chain than there are.
* `rehash_spec`    — the loop over the old buckets moves the elements of each.
-/

namespace LockShield.Uthash

open Lib

variable {Key Node : Type}

/-- The buckets hold the elements of `members`, in the chains `chains`. -/
structure Chained (buckets : Nat → Bucket Node) (n : Nat) (hhNext hhPrev : Node → Option Node)
    (hashv : Node → Nat) (members : List Node) (chains : Nat → List Node) : Prop where
  mem : ∀ b a, a ∈ chains b ↔ a ∈ members ∧ hashToBkt (hashv a) n = b
  nodup : ∀ b, (chains b).Nodup
  head : ∀ b, (buckets b).hhHead = (chains b).head?
  count : ∀ b, (buckets b).count = uint32 (chains b).length
  links : ∀ b, Dll hhNext hhPrev none (chains b) none

theorem hashToBkt_eq_mod {k : Nat} (hk : k ≤ 31) (h : Nat) : hashToBkt h (2 ^ k) = h % 2 ^ k := by
  have hpos : 0 < 2 ^ k := Nat.two_pow_pos k
  have hle : 2 ^ k ≤ 2 ^ 31 := Nat.pow_le_pow_right (by decide) hk
  have hmask : uint32 (2 ^ k + (2 ^ 32 - 1)) = 2 ^ k - 1 := by
    simp only [uint32]
    omega
  rw [hashToBkt, hmask, Nat.and_two_pow_sub_one_eq_mod]

/-- Every hash value has a bucket. -/
theorem hashToBkt_lt {k : Nat} (hk : k ≤ 31) (h : Nat) : hashToBkt h (2 ^ k) < 2 ^ k := by
  rw [hashToBkt_eq_mod hk]
  exact Nat.mod_lt h (Nat.two_pow_pos k)

section Chained

variable {buckets buckets' : Nat → Bucket Node} {n : Nat}
  {hhNext hhPrev hhNext' hhPrev' : Node → Option Node} {hashv hashv' : Node → Nat}
  {members members' : List Node} {chains : Nat → List Node} {a c : Node} {b : Nat}

/-- Empty buckets. -/
theorem chained_nil :
    Chained (fun _ => ⟨none, 0, 0⟩) n hhNext hhPrev hashv ([] : List Node) fun _ => [] where
  mem _ _ := by simp
  nodup _ := List.nodup_nil
  head _ := rfl
  count _ := rfl
  links _ := trivial

/-- Only the set of elements and their hash values matter. -/
theorem Chained.congr (h : Chained buckets n hhNext hhPrev hashv members chains)
    (members' : List Node) (hmem : ∀ a, a ∈ members' ↔ a ∈ members)
    (hhash : ∀ a ∈ members, hashv' a = hashv a) :
    Chained buckets n hhNext hhPrev hashv' members' chains := by
  refine { h with mem := fun b a => ?_ }
  rw [h.mem, hmem]
  refine and_congr_right fun ha => ?_
  rw [hhash a ha]

/-- An element is in one chain only. -/
theorem Chained.apart (h : Chained buckets n hhNext hhPrev hashv members chains) {b' : Nat}
    (hc : c ∈ chains b) (hc' : c ∈ chains b') : b = b' :=
  ((h.mem b c).mp hc).2.symm.trans ((h.mem b' c).mp hc').2

/-- The chains together are the elements. -/
theorem Chained.perm (h : Chained buckets n hhNext hhPrev hashv members chains)
    (hlt : ∀ v, hashToBkt v n < n) (hnodup : members.Nodup) :
    ((List.range n).flatMap chains).Perm members := by
  refine (List.perm_ext_iff_of_nodup ?_ hnodup).mpr fun c => ?_
  · refine List.nodup_flatMap.mpr ⟨fun b _ => h.nodup b, ?_⟩
    refine List.nodup_range.pairwise_of_forall_ne fun b _ b' _ hbb' => ?_
    intro c hc hc'
    exact hbb' (h.apart hc hc')
  · rw [List.mem_flatMap]
    constructor
    · rintro ⟨b, -, hc⟩
      exact ((h.mem b c).mp hc).1
    · intro hc
      exact ⟨_, List.mem_range.mpr (hlt _), (h.mem _ c).mpr ⟨hc, rfl⟩⟩

variable [DecidableEq Node]

/-- A new element at the head of its bucket. -/
theorem Chained.push (h : Chained buckets n hhNext hhPrev hashv members chains)
    (members' : List Node) (ha : a ∉ members) (hb : hashToBkt (hashv a) n = b)
    (hmem : ∀ c, c ∈ members' ↔ c ∈ members ∨ c = a) (mult : Nat) :
    Chained (Function.update buckets b ⟨some a, uint32 ((buckets b).count + 1), mult⟩) n
      (Function.update hhNext a (buckets b).hhHead)
      (patch (Function.update hhPrev a none) (buckets b).hhHead (some a)) hashv members'
      (Function.update chains b (a :: chains b)) := by
  have hnot : ∀ b', a ∉ chains b' := fun b' ha' => ha ((h.mem b' a).mp ha').1
  have hne : ∀ b', ∀ c ∈ chains b', c ≠ a := fun b' c hc hca => hnot b' (hca ▸ hc)
  refine ⟨fun b' c => ?_, fun b' => ?_, fun b' => ?_, fun b' => ?_, fun b' => ?_⟩
  · rw [hmem]
    by_cases hb' : b' = b
    · subst hb'
      rw [Function.update_self, List.mem_cons, h.mem]
      constructor
      · rintro (rfl | ⟨hc, hcb⟩)
        · exact ⟨Or.inr rfl, hb⟩
        · exact ⟨Or.inl hc, hcb⟩
      · rintro ⟨hc | rfl, hcb⟩
        · exact Or.inr ⟨hc, hcb⟩
        · exact Or.inl rfl
    · rw [Function.update_of_ne hb', h.mem]
      constructor
      · rintro ⟨hc, hcb⟩
        exact ⟨Or.inl hc, hcb⟩
      · rintro ⟨hc | rfl, hcb⟩
        · exact ⟨hc, hcb⟩
        · exact absurd (hcb.symm.trans hb) hb'
  · by_cases hb' : b' = b
    · subst hb'
      rw [Function.update_self]
      exact List.nodup_cons.mpr ⟨hnot b', h.nodup b'⟩
    · rw [Function.update_of_ne hb']
      exact h.nodup b'
  · by_cases hb' : b' = b
    · subst hb'
      rw [Function.update_self, Function.update_self]
      rfl
    · rw [Function.update_of_ne hb', Function.update_of_ne hb']
      exact h.head b'
  · by_cases hb' : b' = b
    · subst hb'
      rw [Function.update_self, Function.update_self, h.count]
      exact uint32_add ..
    · rw [Function.update_of_ne hb', Function.update_of_ne hb']
      exact h.count b'
  · rw [h.head]
    by_cases hb' : b' = b
    · subst hb'
      rw [Function.update_self]
      exact (h.links b').push (h.nodup b') (hnot b')
    · -- the stores are to the new element and to one of another chain
      rw [Function.update_of_ne hb']
      refine (h.links b').congr (fun c hc => ?_) fun c hc => ?_
      · exact Function.update_of_ne (hne b' c hc) ..
      · rw [patch_of_ne fun hhead => hb' (h.apart hc (List.mem_of_mem_head? hhead))]
        exact Function.update_of_ne (hne b' c hc) ..

/-- An element leaves its bucket. -/
theorem Chained.remove (h : Chained buckets n hhNext hhPrev hashv members chains)
    (ha : a ∈ members) (hb : hashToBkt (hashv a) n = b)
    (hmem : ∀ c, c ∈ members' ↔ c ∈ members ∧ c ≠ a) (mult : Nat) :
    Chained (Function.update buckets b
        ⟨if (buckets b).hhHead = some a then hhNext a else (buckets b).hhHead,
          uint32 ((buckets b).count + (2 ^ 32 - 1)), mult⟩) n
      (patch hhNext (hhPrev a) (hhNext a)) (patch hhPrev (hhNext a) (hhPrev a)) hashv members'
      (Function.update chains b ((chains b).erase a)) := by
  have hin : a ∈ chains b := (h.mem b a).mpr ⟨ha, hb⟩
  obtain ⟨l₁, l₂, hl⟩ := List.append_of_mem hin
  have hlinks := h.links b
  have hnodup := h.nodup b
  rw [hl] at hlinks hnodup
  obtain ⟨hprev, hnext⟩ := hlinks.links
  have hnot : a ∉ l₁ := by
    intro ha'
    exact (List.nodup_append.mp hnodup).2.2 a ha' a List.mem_cons_self rfl
  have herase : (chains b).erase a = l₁ ++ l₂ := by
    rw [hl, List.erase_append_right _ hnot, List.erase_cons_head]
  -- the neighbours are in the same chain
  have hprevMem : ∀ c, hhPrev a = some c → c ∈ chains b := by
    intro c hc
    rw [hprev] at hc
    rw [hl]
    exact List.mem_append_left _ (List.mem_of_mem_getLast? hc)
  have hnextMem : ∀ c, hhNext a = some c → c ∈ chains b := by
    intro c hc
    rw [hnext] at hc
    rw [hl]
    exact List.mem_append_right _ (List.mem_cons_of_mem _ (List.mem_of_mem_head? hc))
  refine ⟨fun b' c => ?_, fun b' => ?_, fun b' => ?_, fun b' => ?_, fun b' => ?_⟩
  · rw [hmem]
    by_cases hb' : b' = b
    · subst hb'
      rw [Function.update_self, (h.nodup b').mem_erase_iff, h.mem]
      exact ⟨fun hc => ⟨⟨hc.2.1, hc.1⟩, hc.2.2⟩, fun hc => ⟨hc.1.2, hc.1.1, hc.2⟩⟩
    · rw [Function.update_of_ne hb', h.mem]
      refine ⟨fun hc => ⟨⟨hc.1, fun hca => ?_⟩, hc.2⟩, fun hc => ⟨hc.1.1, hc.2⟩⟩
      subst hca
      exact hb' (hc.2.symm.trans hb)
  · by_cases hb' : b' = b
    · subst hb'
      rw [Function.update_self]
      exact (h.nodup b').erase a
    · rw [Function.update_of_ne hb']
      exact h.nodup b'
  · by_cases hb' : b' = b
    · subst hb'
      rw [Function.update_self, Function.update_self, herase, h.head, hl, hnext]
      cases l₁ with
      | nil => simp
      | cons c l₁ =>
        have hca : c ≠ a := fun hca => hnot (hca ▸ List.mem_cons_self)
        simp [hca]
    · rw [Function.update_of_ne hb', Function.update_of_ne hb']
      exact h.head b'
  · by_cases hb' : b' = b
    · subst hb'
      rw [Function.update_self, Function.update_self, h.count, List.length_erase_of_mem hin]
      exact uint32_pred (List.length_pos_of_mem hin)
    · rw [Function.update_of_ne hb', Function.update_of_ne hb']
      exact h.count b'
  · by_cases hb' : b' = b
    · subst hb'
      rw [Function.update_self, herase, hprev, hnext]
      exact hlinks.remove hnodup
    · -- both stores are in the chain of the element
      rw [Function.update_of_ne hb']
      refine (h.links b').congr (fun c hc => ?_) fun c hc => ?_
      · exact patch_of_ne fun hp => hb' (h.apart hc (hprevMem c hp))
      · exact patch_of_ne fun hn => hb' (h.apart hc (hnextMem c hn))

end Chained

/-! ## Expansion -/

/-- The elements whose position in their chain exceeds `ideal`. -/
def excess (ideal n : Nat) (chains : Nat → List Node) : Nat :=
  ∑ b ∈ Finset.range n, ((chains b).length - ideal)

variable [DecidableEq Node]

omit [DecidableEq Node] in
/-- A longer chain has one more such element once it is longer than `ideal`. -/
theorem excess_push {ideal n b : Nat} (chains : Nat → List Node) (a : Node) (hb : b < n) :
    excess ideal n (Function.update chains b (a :: chains b)) =
      excess ideal n chains + if ideal < (chains b).length + 1 then 1 else 0 := by
  have hin : b ∈ Finset.range n := Finset.mem_range.mpr hb
  have hrest : ∑ c ∈ Finset.range n \ {b},
        ((Function.update chains b (a :: chains b) c).length - ideal) =
      ∑ c ∈ Finset.range n \ {b}, ((chains c).length - ideal) := by
    refine Finset.sum_congr rfl fun c hc => ?_
    rw [Finset.mem_sdiff, Finset.mem_singleton] at hc
    rw [Function.update_of_ne hc.2]
  unfold excess
  rw [← Finset.sum_sdiff (Finset.singleton_subset_iff.mpr hin), Finset.sum_singleton, hrest,
    ← Finset.sum_sdiff (Finset.singleton_subset_iff.mpr hin), Finset.sum_singleton,
    Function.update_self, List.length_cons]
  split <;> omega

omit [DecidableEq Node] in
theorem excess_le (ideal n : Nat) (chains : Nat → List Node) :
    excess ideal n chains ≤ ((List.range n).flatMap chains).length := by
  induction n with
  | zero => exact Nat.zero_le _
  | succ n ih =>
    have hsum : excess ideal (n + 1) chains =
        excess ideal n chains + ((chains n).length - ideal) := Finset.sum_range_succ ..
    rw [hsum, List.range_succ, List.flatMap_append, List.length_append, List.flatMap_singleton]
    omega

/-- The elements of `moved` are in the new buckets; the links of the others are
the old ones. -/
structure Rehashed (hhNext : Node → Option Node) (hashv : Node → Nat) (n ideal : Nat)
    (moved : List Node) (chains : Nat → List Node) (r : Rehash Node) : Prop where
  chained : Chained r.buckets n r.hhNext r.hhPrev hashv moved chains
  old : ∀ a, a ∉ moved → r.hhNext a = hhNext a
  nonideal : moved.length < 2 ^ 32 → r.nonidealItems = uint32 (excess ideal n chains)

variable {hhNext hhPrev : Node → Option Node} {hashv : Node → Nat} {n k ideal : Nat}
  {moved : List Node} {chains new : Nat → List Node} {r : Rehash Node} {a : Node}

omit [DecidableEq Node] in
/-- A chain is at most as long as there are elements. -/
theorem Chained.length_le {buckets : Nat → Bucket Node}
    (h : Chained buckets n hhNext hhPrev hashv moved chains) (b : Nat) :
    (chains b).length ≤ moved.length :=
  ((h.nodup b).subperm fun c hc => ((h.mem b c).mp hc).1).length_le

/-- One round of the loop over an old bucket. -/
theorem Rehashed.place (h : Rehashed hhNext hashv n ideal moved new r) (ha : a ∉ moved)
    (hlt : hashToBkt (hashv a) n < n) :
    ∃ new', Rehashed hhNext hashv n ideal (moved ++ [a]) new'
      (r.place ideal (hashToBkt (hashv a) n) a) := by
  set b := hashToBkt (hashv a) n with hb
  refine ⟨Function.update new b (a :: new b), ?_, fun c hc => ?_, fun hfew => ?_⟩
  · exact h.chained.push (moved ++ [a]) ha hb.symm (fun c => by simp) _
  · -- the store to `hh_next` is to the moved element
    rw [List.mem_append, List.mem_singleton, not_or] at hc
    exact (Function.update_of_ne hc.2 ..).trans (h.old c hc.1)
  · rw [List.length_append, List.length_singleton] at hfew
    have hle := h.chained.length_le b
    have hcount : uint32 ((r.buckets b).count + 1) = (new b).length + 1 := by
      rw [h.chained.count, uint32_add]
      exact uint32_of_lt (by omega)
    have hold := h.nonideal (by omega)
    rw [excess_push new a hlt]
    simp only [Rehash.place, hcount, hold]
    split
    · exact uint32_add ..
    · rfl

/-- The loop over an old bucket moves its elements. -/
theorem rehashChain_spec (hlt : ∀ h, hashToBkt h n < n) {x : Option Node} {l : List Node}
    {fuel : Nat} (hl : Dll hhNext hhPrev x l none) (hfuel : l.length ≤ fuel) (hnodup : l.Nodup)
    (hout : ∀ c ∈ l, c ∉ moved) (h : Rehashed hhNext hashv n ideal moved new r) :
    ∃ r' new', rehashChain hashv n ideal fuel l.head? r = .ok r' ∧
      Rehashed hhNext hashv n ideal (moved ++ l) new' r' := by
  induction l generalizing x fuel moved new r with
  | nil =>
    refine ⟨r, new, by simp [rehashChain], ?_⟩
    rwa [List.append_nil]
  | cons c l ih =>
    obtain ⟨-, hnext, hrest⟩ := hl
    obtain ⟨hcl, hnodup⟩ := List.nodup_cons.mp hnodup
    have hc := hout c List.mem_cons_self
    cases fuel with
    | zero => simp at hfuel
    | succ fuel =>
      obtain ⟨new', h'⟩ := h.place hc (hlt _)
      -- the rest of the old chain is untouched
      have hout' : ∀ d ∈ l, d ∉ moved ++ [c] := by
        intro d hd
        rw [List.mem_append, List.mem_singleton, not_or]
        exact ⟨hout d (List.mem_cons_of_mem _ hd), fun hdc => hcl (hdc ▸ hd)⟩
      obtain ⟨r', new'', hrun, h''⟩ :=
        ih hrest (Nat.le_of_succ_le_succ hfuel) hnodup hout' h'
      refine ⟨r', new'', ?_, ?_⟩
      · rw [Option.or_none] at hnext
        simp only [List.head?_cons, rehashChain, h.old c hc, hnext]
        exact hrun
      · rwa [List.append_assoc] at h''

/-- The loop over the old buckets moves the elements of each. -/
theorem rehash_spec (hlt : ∀ h, hashToBkt h n < n) {buckets : Nat → Bucket Node} {m fuel : Nat}
    {members : List Node} (hold : Chained buckets m hhNext hhPrev hashv members chains)
    (hfuel : members.length ≤ fuel) (bs : List Nat) (hbs : bs.Nodup)
    (hout : ∀ b ∈ bs, ∀ c ∈ chains b, c ∉ moved)
    (h : Rehashed hhNext hashv n ideal moved new r) :
    ∃ r' new', bs.foldlM (fun r i => rehashChain hashv n ideal fuel (buckets i).hhHead r) r =
        .ok r' ∧
      Rehashed hhNext hashv n ideal (moved ++ bs.flatMap chains) new' r' := by
  induction bs generalizing moved new r with
  | nil =>
    refine ⟨r, new, rfl, ?_⟩
    rwa [List.flatMap_nil, List.append_nil]
  | cons b bs ih =>
    obtain ⟨hb, hbs⟩ := List.nodup_cons.mp hbs
    have hlen := Nat.le_trans (hold.length_le b) hfuel
    obtain ⟨r₁, new₁, hrun₁, h₁⟩ := rehashChain_spec hlt (hold.links b) hlen (hold.nodup b)
      (hout b List.mem_cons_self) h
    -- the other chains have none of these elements
    have hout₁ : ∀ b' ∈ bs, ∀ c ∈ chains b', c ∉ moved ++ chains b := by
      intro b' hb' c hc
      rw [List.mem_append, not_or]
      refine ⟨hout b' (List.mem_cons_of_mem _ hb') c hc, fun hcb => ?_⟩
      exact hb (hold.apart hcb hc ▸ hb')
    obtain ⟨r', new', hrun', h'⟩ := ih hbs hout₁ h₁
    refine ⟨r', new', ?_, ?_⟩
    · rw [List.foldlM_cons, hold.head, hrun₁]
      exact hrun'
    · rwa [List.append_assoc] at h'

end LockShield.Uthash
