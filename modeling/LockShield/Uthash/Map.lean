import LockShield.Uthash.Rep
import LockShield.Lib.PtrMap

/-!
# `uthash` as a pointer map

`UtHash` is a head pointer with its table, or what is left when a macro has not
completed. `Represents` connects it with any lawful pointer map; disciplined uses
keep the connection, so a table that was used in no other way answers as the map
does until the process has ended for want of memory (`Exited`).

## Results

* `represents_empty`, `represents_add`, `represents_del` — the connection, use by use.
* `represents_of_disciplined` — so every disciplined table has it.
* `Represents.find`           — such a table answers as its map.
* `Represents.sound`          — and its links are intact, as `HASH_FSCK` sees it.
-/

namespace LockShield.Uthash

open Lib

/-- A table in use: its state, or why there is none. -/
structure UtHash (Key Node : Type) (hash : Key → Nat) (malloc : Nat → Nat → Bool) where
  out : Except Stop (State Key Node)

variable {Key Node : Type} {hash : Key → Nat} {malloc : Nat → Nat → Bool}
  [Inhabited Key] [DecidableEq Key] [DecidableEq Node]

instance : PtrMap (UtHash Key Node hash malloc) Key Node where
  empty := ⟨.ok empty⟩
  find m k :=
    match m.out.bind (hashFindPtr hash k) with
    | .ok r => r
    | .error _ => none
  add m k n := ⟨m.out.bind (hashAddPtr malloc hash k n)⟩
  del m n := ⟨m.out.bind (hashDel n)⟩

/-- The process has ended. -/
def Exited (m : UtHash Key Node hash malloc) : Prop := m.out = .error .exit

instance (m : UtHash Key Node hash malloc) : Decidable (Exited m) :=
  match h : m.out with
  | .error e => decidable_of_iff (e = .exit) (by rw [Exited, h, Except.error.injEq])
  | .ok s => isFalse fun hexit => by rw [Exited, h] at hexit; cases hexit

variable {M : Type} [PtrMap M Key Node]

/-- The table has the elements of the map, each under its key. -/
def Represents (m : UtHash Key Node hash malloc) (f : M) : Prop :=
  Exited m ∨ ∃ s order, m.out = .ok s ∧ Rep hash s order ∧
    ∀ k a, PtrMap.find f k = some a ↔ a ∈ order ∧ s.key a = k

variable [LawfulPtrMap M] {m : UtHash Key Node hash malloc} {f : M} {k : Key} {n : Node}

omit [Inhabited Key] [DecidableEq Key] [DecidableEq Node] in
/-- After `exit` nothing is done. -/
theorem exited_bind {β : Type} (g : State Key Node → Except Stop β) (h : Exited m) :
    m.out.bind g = .error .exit := by
  rw [h]
  rfl

/-- The table without elements stands for the empty map. -/
theorem represents_empty : Represents (PtrMap.empty : UtHash Key Node hash malloc)
    (PtrMap.empty : M) := by
  refine Or.inr ⟨empty, [], rfl, rep_empty, fun k a => ?_⟩
  rw [LawfulPtrMap.find_empty]
  simp

/-- `HASH_ADD_PTR` puts the node under its key, or exits for want of memory. -/
theorem represents_add (hmem : MemoryBelow malloc) (h : Represents m f)
    (hk : PtrMap.find f k = none) (hn : ∀ k', PtrMap.find f k' ≠ some n) :
    Represents (PtrMap.add m k n) (PtrMap.add f k n) := by
  rcases h with hexit | ⟨s, order, hs, hrep, hf⟩
  · exact Or.inl (exited_bind _ hexit)
  · have hout : n ∉ order := fun hin => hn (s.key n) ((hf _ n).mpr ⟨hin, rfl⟩)
    have hrun : (PtrMap.add m k n).out = hashAddPtr malloc hash k n s := by
      show m.out.bind _ = _
      rw [hs]
      rfl
    rcases hrep.add hmem hout k with hexit | ⟨t, hadd, hrep', hkey⟩
    · exact Or.inl (hrun.trans hexit)
    · refine Or.inr ⟨t, _, hrun.trans hadd, hrep', fun k' a => ?_⟩
      rw [LawfulPtrMap.find_add f k n hk hn, hkey, List.mem_append, List.mem_singleton]
      by_cases ha : a = n
      · -- the new element is under its key only
        subst ha
        rw [Function.update_self]
        by_cases hkk : k' = k
        · simp [hkk]
        · simp [hkk, hn k', Ne.symm hkk]
      · rw [Function.update_of_ne ha]
        by_cases hkk : k' = k
        · subst hkk
          have hnot : ¬ (a ∈ order ∧ s.key a = k') := by
            rw [← hf, hk]
            simp
          have hna : n ≠ a := fun hna => ha hna.symm
          simpa [ha, hna] using hnot
        · simpa [hkk, ha] using hf k' a

/-- `HASH_DEL` takes the node of the key out. -/
theorem represents_del (h : Represents m f) (hk : PtrMap.find f k = some n)
    (huniq : ∀ k', PtrMap.find f k' = some n → k' = k) :
    Represents (PtrMap.del m n) (PtrMap.del f n) := by
  rcases h with hexit | ⟨s, order, hs, hrep, hf⟩
  · exact Or.inl (exited_bind _ hexit)
  · obtain ⟨hin, hkey⟩ := (hf k n).mp hk
    obtain ⟨t, hdel, hrep', hkey'⟩ := hrep.del hin
    refine Or.inr ⟨t, _, ?_, hrep', fun k' a => ?_⟩
    · show m.out.bind _ = _
      rw [hs]
      exact hdel
    · rw [LawfulPtrMap.find_del f k n hk huniq, hrep.nodup.mem_erase_iff, hkey']
      by_cases ha : a = n
      · -- the element was under its key only
        subst ha
        by_cases hkk : k' = k
        · simp [hkk]
        · have hother : PtrMap.find f k' ≠ some a := fun h' => hkk (huniq k' h')
          simp [hkk, hother]
      · by_cases hkk : k' = k
        · subst hkk
          have hnot : ¬ (a ∈ order ∧ s.key a = k') := by
            rw [← hf, hk]
            simpa using fun h' => ha h'.symm
          simpa [ha] using hnot
        · simpa [hkk, ha] using hf k' a

/-- Disciplined uses keep the table and the map together. -/
theorem represents_of_disciplined (hmem : MemoryBelow malloc)
    {x : Shadowed (UtHash Key Node hash malloc) M} (h : Disciplined x) :
    Represents x.impl x.spec :=
  h.shadow represents_empty (fun _ _ _ _ hr hk hn => represents_add hmem hr hk hn)
    fun _ _ _ _ hr hk huniq => represents_del hr hk huniq

omit [LawfulPtrMap M] in
/-- The table answers as the map does. -/
theorem Represents.find (h : Represents m f) (hlive : ¬ Exited m) (k : Key) :
    PtrMap.find m k = PtrMap.find f k := by
  rcases h with hexit | ⟨s, order, hs, hrep, hf⟩
  · exact absurd hexit hlive
  · obtain ⟨r, hrun, hsome, hnone⟩ := hrep.find k
    have hfind : PtrMap.find m k = r := by
      show (match m.out.bind (hashFindPtr hash k) with
        | .ok r => r
        | .error _ => none) = r
      rw [hs]
      show (match hashFindPtr hash k s with
        | .ok r => r
        | .error _ => none) = r
      rw [hrun]
    rw [hfind]
    -- what the macro finds is the element that the map has, and nothing it does not have
    cases r with
    | some a => exact ((hf k a).mpr (hsome a rfl)).symm
    | none =>
      cases hfk : PtrMap.find f k with
      | none => rfl
      | some a =>
        obtain ⟨ha, hka⟩ := (hf k a).mp hfk
        exact absurd hka (hnone rfl a ha)

omit [Inhabited Key] [LawfulPtrMap M] in
/-- The table passes its integrity check, and every lookup in it ends. -/
theorem Represents.sound (h : Represents m f) (hlive : ¬ Exited m) :
    ∃ s, m.out = .ok s ∧ hashFsck s = true ∧ ∀ k, ∃ r, hashFindPtr hash k s = .ok r := by
  rcases h with hexit | ⟨s, order, hs, hrep, -⟩
  · exact absurd hexit hlive
  · refine ⟨s, hs, hrep.fsck, fun k => ?_⟩
    obtain ⟨r, hrun, -⟩ := hrep.find k
    exact ⟨r, hrun⟩

end LockShield.Uthash
