import Mathlib.Data.List.Chain
import Mathlib.Data.List.Nodup

/-!
# Chains whose last element changes its link

In a linked list the link of one element says nothing about the others. The
lemmas move `List.IsChain` across a change of the relation at one element.

## Results

* `isChain_concat_imp` — the last element's own link does not matter.
* `isChain_relink`     — one link in the middle is stored anew.
* `isChain_pred`       — all elements but the first have one in front of them.
-/

namespace LockShield.Lib

variable {α : Type} {R S : α → α → Prop} {l pre post : List α} {a b : α}

/-- The last element's own link does not matter. -/
theorem isChain_concat_imp (himp : ∀ x ∈ l, ∀ y, R x y → S x y) (h : (l ++ [a]).IsChain R) :
    (l ++ [a]).IsChain S := by
  obtain ⟨hl, -, hlast⟩ := List.isChain_append.mp h
  refine List.isChain_append.mpr ⟨?_, List.isChain_singleton a, fun x hx y hy => ?_⟩
  · exact hl.imp_of_mem_imp fun x y hx _ => himp x hx y
  · exact himp x (List.mem_of_mem_getLast? hx) y (hlast x hx y hy)

/-- All but the first element have one in front of them. -/
theorem isChain_pred (h : (a :: l).IsChain R) (hb : b ∈ l) : ∃ x, R x b := by
  induction l generalizing a with
  | nil => exact absurd hb List.not_mem_nil
  | cons c l ih =>
    obtain ⟨hac, hl⟩ := List.isChain_cons_cons.mp h
    rcases List.mem_cons.mp hb with rfl | hb
    · exact ⟨a, hac⟩
    · exact ih hl hb

/-- Only the link from `a` to `b` is new. -/
theorem isChain_relink (hnodup : (pre ++ a :: b :: post).Nodup)
    (himp : ∀ x y, x ≠ a → R x y → S x y) (hab : S a b)
    (h : (pre ++ a :: b :: post).IsChain R) : (pre ++ a :: b :: post).IsChain S := by
  obtain ⟨-, hcons, hdisj⟩ := List.nodup_append.mp hnodup
  obtain ⟨hpre, -, hpost⟩ := List.isChain_append_cons_cons.mp h
  refine List.isChain_append_cons_cons.mpr ⟨?_, hab, ?_⟩
  · refine isChain_concat_imp (fun x hx y => himp x y fun hxa => ?_) hpre
    exact hdisj x hx a List.mem_cons_self hxa
  · refine hpost.imp_of_mem_imp fun x y hx _ => himp x y fun hxa => ?_
    exact (List.nodup_cons.mp hcons).1 (hxa ▸ hx)

end LockShield.Lib
