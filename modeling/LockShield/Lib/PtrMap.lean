import Mathlib.Logic.Function.Basic

/-!
# Pointer maps

An intrusive hash table keyed by pointers, seen from outside: elements are
added under a key, found by key and deleted by element. `LawfulPtrMap` says
what a correct implementation guarantees to a caller who

* never adds an element twice,
* never adds a second element under one key,
* only deletes elements that are in the table.

`FunMap`, a partial function from keys to elements, is the simplest instance.
`Disciplined` are the tables such a caller can get to, and `Shadowed` runs a
table next to the map it stands for: it answers from the map.

## Results

* `Shadowed.impl_hom`, `Shadowed.spec_hom` — both halves go along with the operations.
* `Disciplined.shadow` — what disciplined calls keep between the two holds of every
  disciplined pair.
-/

namespace LockShield.Lib

/-- The operations of a table of `Node`s keyed by `Key`. -/
class PtrMap (M : Type) (Key Node : outParam Type) where
  empty : M
  find : M → Key → Option Node
  add : M → Key → Node → M
  del : M → Node → M

/-- A correct pointer map, for callers that respect its discipline. -/
class LawfulPtrMap (M : Type) {Key Node : outParam Type} [DecidableEq Key]
    [PtrMap M Key Node] : Prop where
  find_empty : ∀ k : Key, PtrMap.find (PtrMap.empty : M) k = none
  find_add : ∀ (m : M) (k : Key) (n : Node), PtrMap.find m k = none →
    (∀ k', PtrMap.find m k' ≠ some n) →
    ∀ k', PtrMap.find (PtrMap.add m k n) k' = if k' = k then some n else PtrMap.find m k'
  find_del : ∀ (m : M) (k : Key) (n : Node), PtrMap.find m k = some n →
    (∀ k', PtrMap.find m k' = some n → k' = k) →
    ∀ k', PtrMap.find (PtrMap.del m n) k' = if k' = k then none else PtrMap.find m k'

/-- A pointer map as a partial function. -/
structure FunMap (Key Node : Type) where
  get : Key → Option Node

variable {Key Node : Type} [DecidableEq Key] [DecidableEq Node]

instance : PtrMap (FunMap Key Node) Key Node where
  empty := ⟨fun _ => none⟩
  find m k := m.get k
  add m k n := ⟨Function.update m.get k (some n)⟩
  del m n := ⟨fun k => if m.get k = some n then none else m.get k⟩

instance : LawfulPtrMap (FunMap Key Node) where
  find_empty _ := rfl
  find_add m k n _ _ k' := by
    show Function.update m.get k (some n) k' = _
    rw [Function.update_apply]
    rfl
  find_del m k n hk huniq k' := by
    show (if m.get k' = some n then none else m.get k') = if k' = k then none else m.get k'
    by_cases h : m.get k' = some n
    · rw [if_pos h, if_pos (huniq k' h)]
    · have hne : k' ≠ k := fun hkk => h (hkk ▸ hk)
      rw [if_neg h, if_neg hne]

/-! ## Discipline -/

/-- The tables that a caller who respects the discipline gets to. -/
inductive Disciplined {M : Type} [PtrMap M Key Node] : M → Prop
  | empty : Disciplined PtrMap.empty
  | add {m : M} {k : Key} {n : Node} (h : Disciplined m) (hk : PtrMap.find m k = none)
      (hn : ∀ k', PtrMap.find m k' ≠ some n) : Disciplined (PtrMap.add m k n)
  | del {m : M} {k : Key} {n : Node} (h : Disciplined m) (hk : PtrMap.find m k = some n)
      (huniq : ∀ k', PtrMap.find m k' = some n → k' = k) : Disciplined (PtrMap.del m n)

/-- A table and the map it stands for, side by side; the map gives the answers. -/
structure Shadowed (M S : Type) where
  impl : M
  spec : S

variable {M S : Type} [PtrMap M Key Node] [PtrMap S Key Node]

instance : PtrMap (Shadowed M S) Key Node where
  empty := ⟨PtrMap.empty, PtrMap.empty⟩
  find m k := PtrMap.find m.spec k
  add m k n := ⟨PtrMap.add m.impl k n, PtrMap.add m.spec k n⟩
  del m n := ⟨PtrMap.del m.impl n, PtrMap.del m.spec n⟩

omit [DecidableEq Node] in
instance [LawfulPtrMap S] : LawfulPtrMap (Shadowed M S) where
  find_empty k := LawfulPtrMap.find_empty (M := S) k
  find_add m k n hk hn k' := LawfulPtrMap.find_add m.spec k n hk hn k'
  find_del m k n hk huniq k' := LawfulPtrMap.find_del m.spec k n hk huniq k'

/-- A function between tables that goes along with additions and deletions. -/
structure PtrMap.Hom (π : M → S) : Prop where
  add : ∀ m k n, π (PtrMap.add m k n) = PtrMap.add (π m) k n
  del : ∀ m n, π (PtrMap.del m n) = PtrMap.del (π m) n

omit [DecidableEq Key] [DecidableEq Node] in
/-- Forgetting the shadow keeps the operations. -/
theorem Shadowed.impl_hom : PtrMap.Hom (Shadowed.impl : Shadowed M S → M) :=
  ⟨fun _ _ _ => rfl, fun _ _ => rfl⟩

omit [DecidableEq Key] [DecidableEq Node] in
/-- So does forgetting what is shadowed. -/
theorem Shadowed.spec_hom : PtrMap.Hom (Shadowed.spec : Shadowed M S → S) :=
  ⟨fun _ _ _ => rfl, fun _ _ => rfl⟩

omit [DecidableEq Key] [DecidableEq Node] in
/-- A relation that disciplined calls keep holds of a table and its map. -/
theorem Disciplined.shadow {rel : M → S → Prop} (hempty : rel PtrMap.empty PtrMap.empty)
    (hadd : ∀ m f k n, rel m f → PtrMap.find f k = none → (∀ k', PtrMap.find f k' ≠ some n) →
      rel (PtrMap.add m k n) (PtrMap.add f k n))
    (hdel : ∀ m f k n, rel m f → PtrMap.find f k = some n →
      (∀ k', PtrMap.find f k' = some n → k' = k) → rel (PtrMap.del m n) (PtrMap.del f n))
    {x : Shadowed M S} (h : Disciplined x) : rel x.impl x.spec := by
  induction h with
  | empty => exact hempty
  | add _ hk hn ih => exact hadd _ _ _ _ ih hk hn
  | del _ hk huniq ih => exact hdel _ _ _ _ ih hk huniq

end LockShield.Lib
