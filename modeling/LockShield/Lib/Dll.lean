import Mathlib.Logic.Function.Basic
import Mathlib.Data.List.Nodup

/-!
# Doubly linked lists in memory

The links of an intrusive list are two fields of its nodes, here two functions
`next` and `prev`. `Dll next prev x l y` says that they link the nodes of `l` in
this order between the neighbours `x` and `y`; a whole list has `none` on both
sides. The edits of a list are a few stores, each guarded by a test for null
(`patch`).

## Results

* `Dll.congr`  — only the links of the nodes in the list matter.
* `Dll.links`  — the links of a node in the middle are its neighbours.
* `Dll.push`   — a new first node.
* `Dll.append` — a new last node.
* `Dll.remove` — a node is taken out of the middle, or from either end.
-/

namespace LockShield.Lib

variable {α : Type}

/-- The nodes of `l` are linked in this order, between `x` and `y`. -/
def Dll (next prev : α → Option α) : Option α → List α → Option α → Prop
  | _, [], _ => True
  | x, a :: l, y => prev a = x ∧ next a = l.head?.or y ∧ Dll next prev (some a) l y

/-- Store into a field of a node, unless the pointer is null. -/
def patch [DecidableEq α] {β : Type} (f : α → β) (p : Option α) (v : β) : α → β :=
  match p with
  | none => f
  | some a => Function.update f a v

variable {next next' prev prev' : α → Option α} {x y : Option α} {l l₁ l₂ : List α} {a : α}

/-- Only the links of its own cells matter to a list. -/
theorem Dll.congr (hnext : ∀ b ∈ l, next' b = next b) (hprev : ∀ b ∈ l, prev' b = prev b)
    (h : Dll next prev x l y) : Dll next' prev' x l y := by
  induction l generalizing x with
  | nil => trivial
  | cons b l ih =>
    obtain ⟨hp, hn, hrest⟩ := h
    refine ⟨?_, ?_, ?_⟩
    · rw [hprev b List.mem_cons_self]
      exact hp
    · rw [hnext b List.mem_cons_self]
      exact hn
    · exact ih (fun c hc => hnext c (List.mem_cons_of_mem _ hc))
        (fun c hc => hprev c (List.mem_cons_of_mem _ hc)) hrest

/-- A list is linked when both parts are, and the parts to each other. -/
theorem dll_append : Dll next prev x (l₁ ++ l₂) y ↔
    Dll next prev x l₁ (l₂.head?.or y) ∧ Dll next prev (l₁.getLast?.or x) l₂ y := by
  induction l₁ generalizing x with
  | nil => simp [Dll]
  | cons b l₁ ih =>
    have hlast : ((b :: l₁).getLast?).or x = l₁.getLast?.or (some b) := by
      cases l₁ with
      | nil => rfl
      | cons c l₁ =>
        rw [List.getLast?_cons_cons]
        cases h : (c :: l₁).getLast? with
        | none => simp at h
        | some d => rfl
    simp only [List.cons_append, Dll, ih, hlast, List.head?_append, Option.or_assoc, and_assoc]

/-! ## Stores -/

section Patch

variable [DecidableEq α] {β : Type} {f : α → β} {p : Option α} {v : β}

@[simp] theorem patch_none : patch f none v = f := rfl

@[simp] theorem patch_some : patch f (some a) v = Function.update f a v := rfl

/-- Other cells keep their link. -/
theorem patch_of_ne (h : p ≠ some a) : patch f p v a = f a := by
  cases p with
  | none => rfl
  | some b =>
    have hab : a ≠ b := fun hab => h (hab ▸ rfl)
    exact Function.update_of_ne hab ..

/-- So do the cells of another list. -/
theorem patch_of_not_mem {b : α} (hb : b ∉ l) (hp : ∀ c, p = some c → c ∈ l) :
    patch f p v b = f b :=
  patch_of_ne fun h => hb (hp b h)

end Patch

variable [DecidableEq α]

/-- The first node gets a new predecessor. -/
theorem Dll.patch_first (h : Dll next prev x l y) (hnodup : l.Nodup) :
    Dll next (patch prev l.head? x') x' l y := by
  cases l with
  | nil => trivial
  | cons b l =>
    obtain ⟨-, hn, hrest⟩ := h
    obtain ⟨hb, -⟩ := List.nodup_cons.mp hnodup
    refine ⟨Function.update_self .., hn, hrest.congr (fun _ _ => rfl) fun c hc => ?_⟩
    have hcb : c ≠ b := fun hcb => hb (hcb ▸ hc)
    exact Function.update_of_ne hcb ..

/-- The last node gets a new successor. -/
theorem Dll.patch_last (h : Dll next prev x l y) (hnodup : l.Nodup) :
    Dll (patch next l.getLast? y') prev x l y' := by
  rcases List.eq_nil_or_concat l with rfl | ⟨l, b, rfl⟩
  · trivial
  · rw [List.concat_eq_append] at h hnodup ⊢
    obtain ⟨hl, hb⟩ := dll_append.mp h
    have hnot : ∀ c ∈ l, c ≠ b := by
      intro c hc hcb
      exact (List.nodup_append.mp hnodup).2.2 c hc b (List.mem_singleton_self b) hcb
    rw [List.getLast?_concat]
    refine dll_append.mpr ⟨?_, hb.1, Function.update_self .., trivial⟩
    exact hl.congr (fun c hc => Function.update_of_ne (hnot c hc) ..) fun _ _ => rfl

/-- A new node in front. -/
theorem Dll.push (h : Dll next prev none l none) (hnodup : l.Nodup) (ha : a ∉ l) :
    Dll (Function.update next a l.head?) (patch (Function.update prev a none) l.head? (some a))
      none (a :: l) none := by
  have hne : ∀ c ∈ l, c ≠ a := fun c hc hca => ha (hca ▸ hc)
  have hkeep : Dll (Function.update next a l.head?) (Function.update prev a none) none l none :=
    h.congr (fun c hc => Function.update_of_ne (hne c hc) ..)
      fun c hc => Function.update_of_ne (hne c hc) ..
  refine ⟨?_, by simp, hkeep.patch_first hnodup⟩
  rw [patch_of_not_mem ha fun c hc => List.mem_of_mem_head? hc]
  exact Function.update_self ..

/-- A new node at the end. -/
theorem Dll.append (h : Dll next prev none l none) (hnodup : l.Nodup) (ha : a ∉ l) :
    Dll (patch (Function.update next a none) l.getLast? (some a))
      (Function.update prev a l.getLast?) none (l ++ [a]) none := by
  have hne : ∀ c ∈ l, c ≠ a := fun c hc hca => ha (hca ▸ hc)
  have hkeep : Dll (Function.update next a none) (Function.update prev a l.getLast?) none l none :=
    h.congr (fun c hc => Function.update_of_ne (hne c hc) ..)
      fun c hc => Function.update_of_ne (hne c hc) ..
  refine dll_append.mpr ⟨hkeep.patch_last hnodup, ?_, ?_, trivial⟩
  · rw [Function.update_self, Option.or_none]
  · rw [patch_of_not_mem ha fun c hc => List.mem_of_mem_getLast? hc]
    exact Function.update_self ..

omit [DecidableEq α] in
/-- What the links of a node in the list are. -/
theorem Dll.links (h : Dll next prev none (l₁ ++ a :: l₂) none) :
    prev a = l₁.getLast? ∧ next a = l₂.head? := by
  obtain ⟨-, hp, hn, -⟩ := dll_append.mp h
  rw [Option.or_none] at hp hn
  exact ⟨hp, hn⟩

/-- The neighbours of a node are linked to each other. -/
theorem Dll.remove (h : Dll next prev none (l₁ ++ a :: l₂) none)
    (hnodup : (l₁ ++ a :: l₂).Nodup) :
    Dll (patch next l₁.getLast? l₂.head?) (patch prev l₂.head? l₁.getLast?) none (l₁ ++ l₂)
      none := by
  obtain ⟨h₁, -, -, h₂⟩ := dll_append.mp h
  obtain ⟨hn₁, hcons, hdisj⟩ := List.nodup_append.mp hnodup
  obtain ⟨-, hn₂⟩ := List.nodup_cons.mp hcons
  refine dll_append.mpr ⟨?_, ?_⟩
  · -- the part before the node, with a new successor
    rw [Option.or_none]
    refine (h₁.patch_last hn₁).congr (fun _ _ => rfl) fun c hc => ?_
    refine patch_of_ne fun hhead => ?_
    exact hdisj c hc c (List.mem_cons_of_mem _ (List.mem_of_mem_head? hhead)) rfl
  · -- the part behind it, with a new predecessor
    rw [Option.or_none]
    refine (h₂.patch_first hn₂).congr (fun c hc => ?_) fun _ _ => rfl
    refine patch_of_ne fun hlast => ?_
    exact hdisj c (List.mem_of_mem_getLast? hlast) c (List.mem_cons_of_mem _ hc) rfl

end LockShield.Lib
