import Mathlib.Logic.Function.Basic
import Mathlib.SetTheory.Cardinal.Finite

/-!
# First come, first served

The history of a lock as its users see it: who arrived, who was let in, and how
many have left. A queue lock records its steps here without reading them back.
`At k t` says that arrival number `k` was `t`'s and is not over; numbers never
shift, so a queue's links can be stated about them directly.

`Fair` is what a queue lock owes its users, and `Serves` adds who is inside. Both
are kept by an arrival, by an entry of the one whose turn it is, and by the
departure of the one inside; the last section says the same about one queue among
many.

## Results

* `Serves.exclusive`                        — one user is inside at a time.
* `Serves.arrive`, `Serves.enter`, `Serves.depart` — the three steps keep `Serves`.
* `at_of_last`, `At.lt_of_last_ne`          — who the last arrival is, for a `tail`.
* `window_le`                               — users who are in the queue once each span
  no more arrival numbers than there are users.
* `serves_update_arrive`, `serves_update_enter`, `serves_update_depart` — the steps of
  one queue in a family.
-/

namespace LockShield.Lib

/-- Arrivals and entries in order, and the number of departures. -/
structure Fifo (T : Type) where
  arrivals : List T
  entries : List T
  departed : Nat
  deriving DecidableEq, Repr

namespace Fifo

variable {T : Type}

/-- Nobody has come. -/
def empty : Fifo T := ⟨[], [], 0⟩

/-- A user joins the queue; its number is the number of arrivals before it. -/
def arrive (q : Fifo T) (t : T) : Fifo T := { q with arrivals := q.arrivals ++ [t] }

/-- A user is let in. -/
def enter (q : Fifo T) (t : T) : Fifo T := { q with entries := q.entries ++ [t] }

/-- The one inside leaves. -/
def depart (q : Fifo T) : Fifo T := { q with departed := q.departed + 1 }

/-- Arrival `k` was `t`'s, and `t` has not left since. -/
def At (q : Fifo T) (k : Nat) (t : T) : Prop := q.arrivals[k]? = some t ∧ q.departed ≤ k

/-- Entries follow the order of arrival, one at a time. -/
structure Fair (q : Fifo T) : Prop where
  inOrder : q.entries <+: q.arrivals
  lower : q.departed ≤ q.entries.length
  upper : q.entries.length ≤ q.departed + 1

variable {q : Fifo T} {k : Nat} {t u : T}

/-- An arrival has one user. -/
theorem At.unique (h : q.At k t) (h' : q.At k u) : t = u := by
  have := h.1.symm.trans h'.1
  exact Option.some.inj this

/-- Only what has arrived has not left. -/
theorem At.lt (h : q.At k t) : k < q.arrivals.length :=
  (List.getElem?_eq_some_iff.mp h.1).1

/-- Every arrival that is not over is somebody's. -/
theorem at_of_lt (hlo : q.departed ≤ k) (hhi : k < q.arrivals.length) : ∃ t, q.At k t :=
  ⟨q.arrivals[k], List.getElem?_eq_getElem hhi, hlo⟩

@[simp] theorem not_at_empty : ¬ (empty : Fifo T).At k t := by
  simp [At, empty]

/-- The new arrival comes after all others. -/
theorem at_arrive (hle : q.departed ≤ q.arrivals.length) :
    (q.arrive u).At k t ↔ q.At k t ∨ (k = q.arrivals.length ∧ t = u) := by
  unfold At arrive
  rcases Nat.lt_trichotomy k q.arrivals.length with hlt | rfl | hgt
  · rw [List.getElem?_append_left hlt]
    exact ⟨Or.inl, fun h => h.resolve_right fun h => absurd h.1 (Nat.ne_of_lt hlt)⟩
  · simp [hle, eq_comm]
  · rw [List.getElem?_eq_none (by simp; omega), List.getElem?_eq_none (by omega)]
    simp
    omega

/-- Only arrivals and departures matter. -/
theorem at_congr {q' : Fifo T} (harr : q'.arrivals = q.arrivals) (hdep : q'.departed = q.departed) :
    q'.At k t ↔ q.At k t := by
  unfold At
  rw [harr, hdep]

/-- The first arrival is over, and no other. -/
theorem at_depart : q.depart.At k t ↔ q.At k t ∧ k ≠ q.departed := by
  constructor
  · rintro ⟨h, hle⟩
    have hlt : q.departed + 1 ≤ k := hle
    exact ⟨⟨h, by omega⟩, by omega⟩
  · rintro ⟨⟨h, hle⟩, hne⟩
    have hlt : q.departed + 1 ≤ k := by omega
    exact ⟨h, hlt⟩

@[simp] theorem arrivals_enter : (q.enter u).arrivals = q.arrivals := rfl
@[simp] theorem arrivals_arrive : (q.arrive u).arrivals = q.arrivals ++ [u] := rfl
@[simp] theorem departed_enter : (q.enter u).departed = q.departed := rfl
@[simp] theorem departed_arrive : (q.arrive u).departed = q.departed := rfl
@[simp] theorem departed_depart : q.depart.departed = q.departed + 1 := rfl
@[simp] theorem entries_depart : q.depart.entries = q.entries := rfl
@[simp] theorem entries_enter : (q.enter u).entries = q.entries ++ [u] := rfl

/-- The empty history owes nobody anything. -/
theorem fair_empty : (empty : Fifo T).Fair := ⟨List.nil_prefix, Nat.le_refl 0, Nat.zero_le 1⟩

/-- An arrival lets nobody in. -/
theorem Fair.arrive (h : q.Fair) : (q.arrive u).Fair :=
  ⟨h.inOrder.trans (List.prefix_append ..), h.lower, h.upper⟩

/-- The longest waiting user is let in. -/
theorem Fair.enter (h : q.Fair) (ht : q.At q.departed t) (hout : q.entries.length = q.departed) :
    (q.enter t).Fair := by
  refine ⟨?_, ?_, ?_⟩
  · obtain ⟨rest, hrest⟩ := h.inOrder
    -- the entries are the first arrivals, and `t` is the next of them
    have hhead : rest[0]? = some t := by
      have := ht.1
      rw [← hrest, List.getElem?_append_right (by omega), hout, Nat.sub_self] at this
      exact this
    obtain ⟨hd, tl, rfl⟩ : ∃ hd tl, rest = hd :: tl := by
      cases rest with
      | nil => simp at hhead
      | cons hd tl => exact ⟨hd, tl, rfl⟩
    obtain rfl : hd = t := by simpa using hhead
    exact ⟨tl, by simpa using hrest⟩
  · simp
    omega
  · simp
    omega

/-- The one inside leaves the entries where they are. -/
theorem Fair.depart (h : q.Fair) (hin : q.entries.length = q.departed + 1) : q.depart.Fair :=
  ⟨h.inOrder, by simp; omega, by simp; omega⟩

/-! ## Who is inside -/

/-- The queue is fair and `owns` says who is inside: nobody, or the one whose
turn it is. -/
structure Serves (q : Fifo T) (owns : T → Prop) : Prop where
  fair : q.Fair
  front : ∀ t, owns t → q.At q.departed t
  inside : q.entries.length = q.departed + 1 ↔ ∃ t, owns t

variable {owns owns' : T → Prop}

/-- One user is inside at a time: both would be the first. -/
theorem Serves.exclusive (h : q.Serves owns) (ht : owns t) (hu : owns u) : t = u :=
  (h.front t ht).unique (h.front u hu)

/-- Only who is inside matters. -/
theorem Serves.congr (h : q.Serves owns) (heq : ∀ u, owns' u ↔ owns u) : q.Serves owns' :=
  ⟨h.fair, fun t ht => h.front t ((heq t).mp ht),
    h.inside.trans (exists_congr fun u => (heq u).symm)⟩

/-- Nobody is inside an empty queue. -/
theorem serves_empty (hnone : ∀ t, ¬ owns t) : (empty : Fifo T).Serves owns :=
  ⟨fair_empty, fun t ht => absurd ht (hnone t),
    iff_of_false (by simp [empty]) fun ⟨t, ht⟩ => hnone t ht⟩

/-- An arrival changes nothing for those inside. -/
theorem Serves.arrive (h : q.Serves owns) (hle : q.departed ≤ q.arrivals.length) :
    (q.arrive u).Serves owns :=
  ⟨h.fair.arrive, fun t ht => (at_arrive hle).mpr (Or.inl (h.front t ht)), h.inside⟩

/-- The one whose turn it is goes in. -/
theorem Serves.enter (h : q.Serves owns) (hat : q.At q.departed t) (hout : ¬ owns t)
    (hin : ∀ u, owns' u ↔ u = t) : (q.enter t).Serves owns' := by
  have hlen : q.entries.length = q.departed := by
    have hlo := h.fair.lower
    have hhi := h.fair.upper
    have hnobody : ¬ ∃ u, owns u := fun ⟨u, hu⟩ => hout ((h.front u hu).unique hat ▸ hu)
    have hne : q.entries.length ≠ q.departed + 1 := fun heq => hnobody (h.inside.mp heq)
    omega
  refine ⟨h.fair.enter hat hlen, fun u hu => ?_, iff_of_true (by simp [hlen]) ⟨t, (hin t).mpr rfl⟩⟩
  rw [(hin u).mp hu]
  exact hat

/-- The one inside leaves. -/
theorem Serves.depart (h : q.Serves owns) (ht : owns t) (hout : ∀ u, ¬ owns' u) :
    q.depart.Serves owns' := by
  have hin := h.inside.mpr ⟨t, ht⟩
  exact ⟨h.fair.depart hin, fun u hu => absurd hu (hout u),
    iff_of_false (by simp; omega) fun ⟨u, hu⟩ => hout u hu⟩

/-! ## The last arrival -/

/-- The last arrival, if it is not over. -/
def last (q : Fifo T) : Option T :=
  if q.departed = q.arrivals.length then none else q.arrivals.getLast?

/-- There is no last arrival when all arrivals are over. -/
theorem last_eq_none_iff (hle : q.departed ≤ q.arrivals.length) :
    q.last = none ↔ q.departed = q.arrivals.length := by
  unfold last
  split
  · rename_i heq
    exact iff_of_true rfl heq
  · rename_i hne
    refine iff_of_false (fun hnone => ?_) hne
    rw [List.getLast?_eq_none_iff] at hnone
    rw [hnone, List.length_nil] at hne hle
    exact hne (Nat.le_zero.mp hle)

/-- While somebody is in the queue there is a last arrival. -/
theorem At.last_ne_none (h : q.At k t) : q.last ≠ none := by
  have hlt := h.lt
  have hlo := h.2
  rw [Ne, last_eq_none_iff (by omega)]
  omega

/-- The last arrival has the highest number. -/
theorem at_of_last (hle : q.departed ≤ q.arrivals.length) (h : q.last = some t) :
    q.At (q.arrivals.length - 1) t := by
  unfold last at h
  split at h
  · cases h
  · rw [List.getLast?_eq_getElem?] at h
    exact ⟨h, by omega⟩

/-- Who has the highest number is the last arrival. -/
theorem At.last_eq (h : q.At k t) (hlast : k + 1 = q.arrivals.length) : q.last = some t := by
  have hlo := h.2
  rw [last, if_neg (by omega), List.getLast?_eq_getElem?, ← hlast, Nat.add_sub_cancel]
  exact h.1

/-- Who is not the last has somebody behind it. -/
theorem At.lt_of_last_ne (h : q.At k t) (hne : q.last ≠ some t) : k + 1 < q.arrivals.length := by
  have hlt := h.lt
  by_contra hge
  exact hne (h.last_eq (by omega))

/-- A newcomer is the last. -/
theorem last_arrive (hle : q.departed ≤ q.arrivals.length) : (q.arrive u).last = some u := by
  rw [last, if_neg (by simp; omega)]
  simp

/-! ## How many there are -/

/-- Users who are in the queue once each do not outnumber themselves. -/
theorem window_le [Finite T] (honce : ∀ j k t, q.At j t → q.At k t → j = k) :
    q.arrivals.length - q.departed ≤ Nat.card T := by
  have hlt : ∀ i : Fin (q.arrivals.length - q.departed), q.departed + i < q.arrivals.length :=
    fun i => by omega
  let user : Fin (q.arrivals.length - q.departed) → T := fun i =>
    q.arrivals.get ⟨q.departed + i, hlt i⟩
  have hat : ∀ i, q.At (q.departed + i.val) (user i) := fun i =>
    ⟨List.getElem?_eq_getElem (hlt i), Nat.le_add_right ..⟩
  have hinj : Function.Injective user := by
    intro i j hij
    have heq := honce _ _ _ (hat i) (hij ▸ hat j)
    exact Fin.ext (by omega)
  rw [← Nat.card_fin (q.arrivals.length - q.departed)]
  exact Nat.card_le_card_of_injective user hinj

/-- Then a window of the arrival numbers contains all that are not over. -/
theorem At.lt_add_card [Finite T] (honce : ∀ j k t, q.At j t → q.At k t → j = k)
    (h : q.At k t) : k < q.departed + Nat.card T := by
  have hlen := h.lt
  have hlo := h.2
  have hwindow := window_le honce
  omega

/-! ## A queue for each lock

A step of one queue among many, and what it does to all of them. -/

section Family

variable {L : Type} [DecidableEq L] {qs : L → Fifo T} {l m : L} {j : Nat}

/-- An arrival at one lock. -/
theorem at_update_arrive (hle : (qs l).departed ≤ (qs l).arrivals.length) :
    (Function.update qs l ((qs l).arrive t) m).At j u ↔
      (qs m).At j u ∨ (m = l ∧ j = (qs l).arrivals.length ∧ u = t) := by
  by_cases hm : m = l
  · subst hm
    rw [Function.update_self, at_arrive hle]
    simp
  · simp [hm]

/-- Nobody leaves by an arrival. -/
theorem departed_update_arrive :
    (Function.update qs l ((qs l).arrive t) m).departed = (qs m).departed := by
  by_cases hm : m = l
  · subst hm
    rw [Function.update_self]
    rfl
  · rw [Function.update_of_ne hm]

/-- The old arrivals stay. -/
theorem arrivals_update_arrive :
    (qs m).arrivals <+: (Function.update qs l ((qs l).arrive t) m).arrivals := by
  by_cases hm : m = l
  · subst hm
    rw [Function.update_self]
    exact List.prefix_append ..
  · have hsame : Function.update qs l ((qs l).arrive t) m = qs m := Function.update_of_ne hm ..
    exact hsame ▸ List.prefix_rfl

/-- Each old arrival keeps its number. -/
theorem getElem?_update_arrive (h : (qs m).arrivals[j]? = some u) :
    (Function.update qs l ((qs l).arrive t) m).arrivals[j]? = some u := by
  have hpre : (qs m).arrivals <+: (Function.update qs l ((qs l).arrive t) m).arrivals :=
    arrivals_update_arrive
  obtain ⟨ext, hext⟩ := hpre
  rw [← hext, List.getElem?_append_left (List.getElem?_eq_some_iff.mp h).1]
  exact h

/-- An exchange of the tail is an arrival at its lock. -/
theorem last_update_arrive {tail : L → Option T} (hle : (qs l).departed ≤ (qs l).arrivals.length)
    (htail : ∀ m, tail m = (qs m).last) (m : L) :
    Function.update tail l (some t) m = (Function.update qs l ((qs l).arrive t) m).last := by
  by_cases hm : m = l
  · subst hm
    rw [Function.update_self, Function.update_self, last_arrive hle]
  · rw [Function.update_of_ne hm, Function.update_of_ne hm]
    exact htail m

/-- Who is let in keeps its place. -/
theorem at_update_enter : (Function.update qs l ((qs l).enter t) m).At j u ↔ (qs m).At j u := by
  by_cases hm : m = l
  · subst hm
    rw [Function.update_self]
    exact at_congr rfl rfl
  · rw [Function.update_of_ne hm]

/-- Nobody leaves by an entry. -/
theorem departed_update_enter :
    (Function.update qs l ((qs l).enter t) m).departed = (qs m).departed := by
  by_cases hm : m = l
  · subst hm
    rw [Function.update_self]
    rfl
  · rw [Function.update_of_ne hm]

/-- Nobody arrives by an entry. -/
theorem arrivals_update_enter :
    (Function.update qs l ((qs l).enter t) m).arrivals = (qs m).arrivals := by
  by_cases hm : m = l
  · subst hm
    rw [Function.update_self]
    rfl
  · rw [Function.update_of_ne hm]

/-- A departure at one lock. -/
theorem at_update_depart :
    (Function.update qs l (qs l).depart m).At j u ↔
      (qs m).At j u ∧ (m = l → j ≠ (qs l).departed) := by
  by_cases hm : m = l
  · subst hm
    rw [Function.update_self, at_depart]
    simp
  · simp [hm]

/-- The departure of one that is in its queue once takes its place and no other. -/
theorem at_update_depart_iff_ne (hfront : (qs l).At (qs l).departed t)
    (honce : ∀ j, (qs l).At j t → j = (qs l).departed) :
    (Function.update qs l (qs l).depart m).At j u ↔ (qs m).At j u ∧ (u ≠ t ∨ m ≠ l) := by
  rw [at_update_depart]
  refine and_congr_right fun hj => ⟨fun hne => ?_, ?_⟩
  · by_cases hm : m = l
    · subst hm
      exact Or.inl fun hu => hne rfl (honce j (hu ▸ hj))
    · exact Or.inr hm
  · rintro hum rfl rfl
    exact hum.elim (fun hu => hu (hj.unique hfront)) fun hm => hm rfl

/-- Nobody arrives by a departure. -/
theorem arrivals_update_depart :
    (Function.update qs l (qs l).depart m).arrivals = (qs m).arrivals := by
  by_cases hm : m = l
  · subst hm
    rw [Function.update_self]
    rfl
  · rw [Function.update_of_ne hm]

/-- After a departure of the first, which is still there. -/
theorem departed_update_depart_le (hat : (qs l).At (qs l).departed t)
    (hle : ∀ m, (qs m).departed ≤ (qs m).arrivals.length) (m : L) :
    (Function.update qs l (qs l).depart m).departed ≤
      (Function.update qs l (qs l).depart m).arrivals.length := by
  by_cases hm : m = l
  · subst hm
    rw [Function.update_self]
    exact hat.lt
  · rw [Function.update_of_ne hm]
    exact hle m

variable {owns owns' : L → T → Prop}

/-- Every lock still serves its queue after an arrival at one. -/
theorem serves_update_arrive (h : ∀ m, (qs m).Serves (owns m))
    (hle : (qs l).departed ≤ (qs l).arrivals.length) (heq : ∀ m u, owns' m u ↔ owns m u) (m : L) :
    (Function.update qs l ((qs l).arrive t) m).Serves (owns' m) := by
  by_cases hm : m = l
  · subst hm
    rw [Function.update_self]
    exact ((h m).arrive hle).congr (heq m)
  · rw [Function.update_of_ne hm]
    exact (h m).congr (heq m)

/-- So it does after an entry of the one whose turn it is. -/
theorem serves_update_enter (h : ∀ m, (qs m).Serves (owns m)) (hat : (qs l).At (qs l).departed t)
    (hout : ¬ owns l t) (hin : owns' l t)
    (hothers : ∀ m u, u ≠ t ∨ m ≠ l → (owns' m u ↔ owns m u)) (m : L) :
    (Function.update qs l ((qs l).enter t) m).Serves (owns' m) := by
  by_cases hm : m = l
  · subst hm
    rw [Function.update_self]
    refine (h m).enter hat hout fun u => ⟨fun hu => ?_, fun hu => hu ▸ hin⟩
    by_contra hut
    -- another owner would be at the front, where `t` is
    have hold := (hothers m u (Or.inl hut)).mp hu
    exact hut (((h m).front u hold).unique hat)
  · rw [Function.update_of_ne hm]
    exact (h m).congr fun u => hothers m u (Or.inr hm)

/-- And after the departure of the one inside. -/
theorem serves_update_depart (h : ∀ m, (qs m).Serves (owns m)) (ht : owns l t)
    (hout : ¬ owns' l t) (hothers : ∀ m u, u ≠ t ∨ m ≠ l → (owns' m u ↔ owns m u)) (m : L) :
    (Function.update qs l (qs l).depart m).Serves (owns' m) := by
  by_cases hm : m = l
  · subst hm
    rw [Function.update_self]
    refine (h m).depart ht fun u hu => ?_
    by_cases hut : u = t
    · exact hout (hut ▸ hu)
    · exact hut ((h m).exclusive ((hothers m u (Or.inl hut)).mp hu) ht)
  · rw [Function.update_of_ne hm]
    exact (h m).congr fun u => hothers m u (Or.inr hm)

end Family

end Fifo

/-! ## Which locks the users ask for -/

variable {L : Type}

/-- A user of many locks uses one at a time. -/
def oneAtATime (held : List L) (_ : L) : Bool := held.isEmpty

/-- A user may hold several locks and never asks for one that it holds. -/
def notHeld [DecidableEq L] (held : List L) (l : L) : Bool := l ∉ held

/-- Who may ask for a lock holds none. -/
theorem oneAtATime_iff {held : List L} {l : L} : oneAtATime held l = true ↔ held = [] :=
  List.isEmpty_iff

/-- Who may ask for a lock does not hold it. -/
theorem notHeld_iff [DecidableEq L] {held : List L} {l : L} :
    notHeld held l = true ↔ l ∉ held := decide_eq_true_iff

end LockShield.Lib
