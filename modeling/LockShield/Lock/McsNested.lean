import LockShield.Lock.Mcs
import Mathlib.Data.Fintype.Defs

/-!
# `MCSLock`s held together

`myNode` is one node per thread, so the queues of all the locks that a thread
holds meet in one `next`, and whoever queues behind it on any of them stores its
link there. A `Release` follows the link whichever queue it belongs to.

A link is only a node, so the lock that it was stored for is kept as a history
variable next to the state (`noteLink`).

## Results

* `nested_step`     — what holds of the queues while every link that was loaded was stored
  for the lock that is released.
* `NestedInv.leak`  — a `Release` that loads another lock's link.
* `mcs_independent` — nothing else goes wrong: the locks are independent in the runs in
  which every `Release` loads a link that was stored for its own lock.
* `mcs_shared_releaseInner` — a run in which one lock lets in whom another lock has queued.
-/

set_option linter.unusedSectionVars false

namespace LockShield.Mcs

open Lib

variable {L T : Type} [DecidableEq L] [DecidableEq T]

variable (L T) in
/-- The locks that the links are for. -/
structure Links where
  /-- the lock whose waiter stored the node's link, until the link is cleared -/
  tag : T → Option L
  /-- the lock whose link the thread's `Release` has loaded -/
  loaded : T → Option L

/-- Note which lock a link is for, and which one a `Release` loads. -/
def noteLink (links : Links L T) (s : State L T) : Action L T → Links L T
  | .acquire _ _ | .release _ _ => links
  | .advance t =>
    match s.pc t with
    | .clearNext _ => { links with tag := Function.update links.tag t none }
    | .link l prev => { links with tag := Function.update links.tag prev (some l) }
    | .loadNext _ => { links with loaded := Function.update links.loaded t (links.tag t) }
    | .idle | .setLocked _ | .swapTail _ | .spin _ | .checkNext _ | .casTail _ | .awaitNext _
    | .wake _ _ | .crashed => links

/-- Threads that hold any locks, with the locks that the links are for. -/
def nestedStep : State L T × Links L T → Action L T → Option (State L T × Links L T) :=
  withHistory (step notHeld) noteLink

def nestedInit : State L T × Links L T := (init, ⟨fun _ => none, fun _ => none⟩)

/-- No `Release` has loaded a link of another lock. -/
def OwnLinks (x : State L T × Links L T) : Prop :=
  ∀ t l, (∃ succ, x.1.pc t = .wake l succ) → x.2.loaded t = some l

instance [Fintype L] [Fintype T] : DecidablePred (OwnLinks : State L T × Links L T → Prop) :=
  fun x => inferInstanceAs
    (Decidable (∀ t l, (∃ succ, x.1.pc t = .wake l succ) → x.2.loaded t = some l))

/-- The lock whose queue a call is in. -/
@[simp] def Pc.queue : Pc L T → Option L
  | .idle | .clearNext _ | .setLocked _ | .swapTail _ | .crashed => none
  | .link l _ | .spin l | .checkNext l | .casTail l | .awaitNext l | .loadNext l | .wake l _ =>
    some l

/-- The lock that a call of `Release` still has. -/
@[simp] def Pc.owned : Pc L T → Option L
  | .idle | .clearNext _ | .setLocked _ | .swapTail _ | .link _ _ | .spin _ | .crashed => none
  | .checkNext l | .casTail l | .awaitNext l | .loadNext l | .wake l _ => some l

/-- The thread is in the lock's queue: from the exchange to the end of
`Release`. -/
def Queued (s : State L T) (t : T) (l : L) : Prop := (s.pc t).queue = some l ∨ l ∈ s.held t

/-- The thread has the lock, whatever call it is in. -/
def Holds (s : State L T) (t : T) (l : L) : Prop := (s.pc t).owned = some l ∨ l ∈ s.held t

/-- What a thread's next access tells about it. -/
def CallOk (s : State L T) (links : Links L T) (t : T) : Prop :=
  match s.pc t with
  | .idle | .clearNext _ | .checkNext _ | .casTail _ | .awaitNext _ => True
  | .setLocked l => links.tag t ≠ some l
  | .swapTail l => links.tag t ≠ some l ∧ s.locked t = true
  | .link l prev => s.locked t = true ∧ ∃ k, (s.queue l).At k prev ∧ (s.queue l).At (k + 1) t
  | .spin l => s.locked t = false → (s.queue l).At (s.queue l).departed t
  | .loadNext _ => s.next t ≠ none
  | .wake l succ => (s.queue l).At ((s.queue l).departed + 1) succ ∧ s.pc succ = .spin l
  | .crashed => False

structure NestedInv (s : State L T) (links : Links L T) : Prop where
  nodup : ∀ t, (s.held t).Nodup
  fresh : ∀ t l, (s.pc t).lock = some l → l ∉ s.held t
  place : ∀ t l, Queued s t l ↔ ∃ k, (s.queue l).At k t
  once : ∀ l j k t, (s.queue l).At j t → (s.queue l).At k t → j = k
  bound : ∀ l, (s.queue l).departed ≤ (s.queue l).arrivals.length
  tail : ∀ l, s.tail l = (s.queue l).last
  serves : ∀ l, (s.queue l).Serves fun t => Holds s t l
  /-- a link leads to the next arrival of the lock that it is for, if the node is
  in that queue -/
  linked : ∀ l k t u, links.tag t = some l → s.next t = some u → (s.queue l).At k t →
    (s.queue l).At (k + 1) u ∧ s.pc u = .spin l
  callOk : ∀ t, CallOk s links t

variable {s s' : State L T} {links links' : Links L T} {x y : State L T × Links L T} {t u : T}
  {l m : L} {a : Action L T}

/-! ## One step -/

theorem nestedInv_init : NestedInv (init : State L T) ⟨fun _ => none, fun _ => none⟩ :=
  { nodup := fun _ => List.nodup_nil
    fresh := fun _ _ _ => List.not_mem_nil
    place := fun t l => iff_of_false (by simp [Queued, init])
      fun ⟨k, hk⟩ => Fifo.not_at_empty hk
    once := fun _ _ _ _ h => absurd h Fifo.not_at_empty
    bound := fun _ => Nat.le_refl 0
    tail := fun _ => rfl
    serves := fun _ => Fifo.serves_empty fun _ h => by simp [Holds, init] at h
    linked := fun _ _ _ _ _ _ h => absurd h Fifo.not_at_empty
    callOk := fun _ => trivial }

/-- A thread in an early access of `Acquire` is not in the queue. -/
theorem NestedInv.not_at (h : NestedInv s links) (hlock : (s.pc t).lock = some l)
    (hqueue : (s.pc t).queue ≠ some l) (k : Nat) : ¬ (s.queue l).At k t := fun hat =>
  ((h.place t l).mpr ⟨k, hat⟩).elim hqueue (h.fresh t l hlock)

/-- A holder is at the front. -/
theorem NestedInv.front (h : NestedInv s links) (ht : Holds s t l) :
    (s.queue l).At (s.queue l).departed t := (h.serves l).front t ht

/-- Who is about to be woken spins, and is next. -/
theorem NestedInv.woken {succ : T} (h : NestedInv s links) (hcase : s.pc t = .wake l succ) :
    (s.queue l).At ((s.queue l).departed + 1) succ ∧ s.pc succ = .spin l := by
  have hok := h.callOk t
  simpa only [CallOk, hcase] using hok

/-- The waiters go on spinning while another thread moves. -/
theorem spin_kept (hpcs : ∀ u, u ≠ t → s'.pc u = s.pc u) (ht : ∀ m, s.pc t ≠ .spin m)
    (hu : s.pc u = .spin l) : s'.pc u = .spin l := by
  have hut : u ≠ t := by
    rintro rfl
    exact ht l hu
  rw [hpcs u hut, hu]

/-- A call is about a lock that the thread does not hold; only the thread that
moves has to be looked at. -/
theorem NestedInv.fresh_step (h : NestedInv s links)
    (hothers : ∀ u, u ≠ t → s'.pc u = s.pc u ∧ s'.held u = s.held u)
    (ht : ∀ l, (s'.pc t).lock = some l → l ∉ s'.held t) :
    ∀ u l, (s'.pc u).lock = some l → l ∉ s'.held u := by
  intro u l hl
  by_cases hu : u = t
  · rw [hu] at hl ⊢
    exact ht l hl
  · rw [(hothers u hu).1] at hl
    rw [(hothers u hu).2]
    exact h.fresh u l hl

/-- What a thread's next access tells stays true while the queues only grow. -/
theorem CallOk.frame (h : CallOk s links u) (hpc : s'.pc u = s.pc u)
    (hlocked : s'.locked u = s.locked u) (hnext : s.next u ≠ none → s'.next u ≠ none)
    (htag : ∀ l, s.pc u = .setLocked l ∨ s.pc u = .swapTail l → links'.tag u = some l →
      links.tag u = some l)
    (hat : ∀ l k v, (s.queue l).At k v → (s'.queue l).At k v)
    (hdep : ∀ l, (s'.queue l).departed = (s.queue l).departed)
    (hwake : ∀ l succ, s.pc u = .wake l succ → s'.pc succ = .spin l) : CallOk s' links' u := by
  unfold CallOk at h ⊢
  rw [hpc]
  cases hcase : s.pc u <;> rw [hcase] at h <;> simp only [hlocked, hdep] at h ⊢
  -- of the own link only what the tag says matters
  case setLocked l => exact fun hl => h (htag l (Or.inl hcase) hl)
  case swapTail l => exact ⟨fun hl => h.1 (htag l (Or.inr hcase) hl), h.2⟩
  -- places in a queue stay places
  case link l prev =>
    obtain ⟨hl, k, hprev, hk⟩ := h
    exact ⟨hl, k, hat _ _ _ hprev, hat _ _ _ hk⟩
  case spin l => exact fun hfree => hat _ _ _ (h hfree)
  case loadNext l => exact hnext h
  case wake l succ => exact ⟨hat _ _ _ h.1, hwake l succ hcase⟩

/-- A step of thread `t` that leaves the queues and the other threads alone. -/
theorem NestedInv.quiet (h : NestedInv s links) (hqueue : s'.queue = s.queue)
    (htail : s'.tail = s.tail)
    (hothers : ∀ u, u ≠ t → s'.pc u = s.pc u ∧ s'.held u = s.held u ∧ s'.next u = s.next u ∧
      s'.locked u = s.locked u ∧ links'.tag u = links.tag u)
    (hspin : ∀ l, s.pc t ≠ .spin l) (hnodup : (s'.held t).Nodup)
    (hfresh : ∀ l, (s'.pc t).lock = some l → l ∉ s'.held t)
    (hqueued : ∀ l, Queued s' t l ↔ Queued s t l) (hholds : ∀ l, Holds s' t l ↔ Holds s t l)
    (hlink : ∀ l v, links'.tag t = some l → s'.next t = some v →
      links.tag t = some l ∧ s.next t = some v)
    (hcall : CallOk s' links' t) : NestedInv s' links' := by
  have hpcs : ∀ u, u ≠ t → s'.pc u = s.pc u := fun u hu => (hothers u hu).1
  -- for the other threads nothing of this changes, for `t` it is assumed
  have hboth : ∀ u l, (Queued s' u l ↔ Queued s u l) ∧ (Holds s' u l ↔ Holds s u l) := by
    intro u l
    by_cases hu : u = t
    · rw [hu]
      exact ⟨hqueued l, hholds l⟩
    · simp only [Queued, Holds, (hothers u hu).1, (hothers u hu).2.1, and_self]
  refine
    { nodup := fun u => ?_
      fresh := h.fresh_step (fun u hu => ⟨(hothers u hu).1, (hothers u hu).2.1⟩) hfresh
      place := fun u l => by rw [hqueue, (hboth u l).1]; exact h.place u l
      once := by rw [hqueue]; exact h.once
      bound := by rw [hqueue]; exact h.bound
      tail := by rw [hqueue, htail]; exact h.tail
      serves := fun l => by rw [hqueue]; exact (h.serves l).congr fun u => (hboth u l).2
      linked := fun l k u v htag hnext hat => ?_
      callOk := fun u => ?_ }
  · by_cases hu : u = t
    · rw [hu]
      exact hnodup
    · rw [(hothers u hu).2.1]
      exact h.nodup u
  · rw [hqueue] at hat ⊢
    -- the step makes no new link
    have hold : links.tag u = some l ∧ s.next u = some v := by
      by_cases hu : u = t
      · rw [hu] at htag hnext ⊢
        exact hlink l v htag hnext
      · obtain ⟨-, -, h3, -, h5⟩ := hothers u hu
        exact ⟨h5 ▸ htag, h3 ▸ hnext⟩
    obtain ⟨hnew, hv⟩ := h.linked l k u v hold.1 hold.2 hat
    exact ⟨hnew, spin_kept hpcs hspin hv⟩
  · by_cases hu : u = t
    · rw [hu]
      exact hcall
    · obtain ⟨h1, -, h3, h4, h5⟩ := hothers u hu
      refine (h.callOk u).frame h1 h4 (by rw [h3]; exact id) (fun l _ => by rw [h5]; exact id)
        (fun l k v hv => by rw [hqueue]; exact hv) (fun l => by rw [hqueue]) fun l succ hw => ?_
      exact spin_kept hpcs hspin (h.woken hw).2

/-- The waiter stores its link. -/
theorem nested_link {prev : T} (h : NestedInv s links) (hcase : s.pc t = .link l prev) :
    NestedInv ({ s with next := Function.update s.next prev (some t) }.goto t (.spin l))
      { links with tag := Function.update links.tag prev (some l) } := by
  set s' := ({ s with next := Function.update s.next prev (some t) } : State L T).goto t (.spin l)
    with hs'
  have hpct : s'.pc t = .spin l := Function.update_self ..
  have hpcs : ∀ u, u ≠ t → s'.pc u = s.pc u := fun u hu => Function.update_of_ne hu ..
  have hheld : s'.held = s.held := rfl
  have hspin : ∀ m, s.pc t ≠ .spin m := by simp [hcase]
  have hok := h.callOk t
  simp only [CallOk, hcase] at hok
  obtain ⟨hlocked, j, hprev, hj⟩ := hok
  have hboth : ∀ u m, (Queued s' u m ↔ Queued s u m) ∧ (Holds s' u m ↔ Holds s u m) := by
    intro u m
    by_cases hu : u = t
    · simp [hu, Queued, Holds, hpct, hcase, hheld]
    · simp [Queued, Holds, hpcs u hu, hheld]
  refine
    { nodup := h.nodup
      fresh := h.fresh_step (fun u hu => ⟨hpcs u hu, rfl⟩) fun m hm => ?_
      place := fun u m => (hboth u m).1.trans (h.place u m)
      once := h.once
      bound := h.bound
      tail := h.tail
      serves := fun m => (h.serves m).congr fun u => (hboth u m).2
      linked := fun m k u v htag hnext hat => ?_
      callOk := fun u => ?_ }
  · rw [hpct] at hm
    exact h.fresh t m (by rw [hcase]; exact hm)
  · by_cases hu : u = prev
    · subst hu
      obtain rfl : l = m := by simpa using htag
      obtain rfl : t = v := by simpa [hs', State.goto] using hnext
      -- the new link: `t` is right behind its predecessor, and spins from now on
      rw [h.once l k j u hat hprev]
      exact ⟨hj, hpct⟩
    · have htag' : links.tag u = some m := by simpa [hu] using htag
      have hnext' : s.next u = some v := by simpa [hu, hs', State.goto] using hnext
      obtain ⟨hnew, hv⟩ := h.linked m k u v htag' hnext' hat
      exact ⟨hnew, spin_kept hpcs hspin hv⟩
  · by_cases hu : u = t
    · subst hu
      simp only [CallOk, hpct]
      intro hfree
      -- its flag is still set, nobody has passed the lock to it
      rw [show s'.locked u = s.locked u from rfl, hlocked] at hfree
      cases hfree
    · refine (h.callOk u).frame (hpcs u hu) rfl (fun hn => ?_) (fun m hm htag => ?_)
        (fun _ _ _ hv => hv) (fun _ => rfl) fun m succ hw => ?_
      · by_cases hup : u = prev
        · simp [hs', State.goto, hup]
        · simpa [hs', State.goto, hup] using hn
      · by_cases hup : u = prev
        · -- the predecessor may be in an `Acquire`, but of another lock
          subst hup
          obtain rfl : l = m := by simpa using htag
          refine absurd hprev (h.not_at ?_ ?_ j) <;> rcases hm with hm | hm <;> simp [hm, Pc.lock]
        · simpa [hup] using htag
      · exact spin_kept hpcs hspin (h.woken hw).2

/-- The exchange, up to what the thread finds. -/
theorem nested_arrive (h : NestedInv s links) (hcase : s.pc t = .swapTail l) {pc : Pc L T}
    {ticket : T → Nat} (hlock : pc.lock = some l) (hq : pc.queue = some l) (ho : pc.owned = none)
    (hs' : s' = { s with
      tail := Function.update s.tail l (some t)
      queue := Function.update s.queue l ((s.queue l).arrive t)
      ticket }.goto t pc) (hcall : CallOk s' links t) : NestedInv s' links := by
  have hpct : s'.pc t = pc := by rw [hs']; exact Function.update_self ..
  have hpcs : ∀ u, u ≠ t → s'.pc u = s.pc u := by
    intro u hu
    rw [hs']; exact Function.update_of_ne hu ..
  have hheld : s'.held = s.held := by rw [hs']; rfl
  have hqueue : s'.queue = Function.update s.queue l ((s.queue l).arrive t) := by rw [hs']; rfl
  have hat : ∀ m k u, (s'.queue m).At k u ↔
      (s.queue m).At k u ∨ (m = l ∧ k = (s.queue l).arrivals.length ∧ u = t) := by
    intro m k u
    rw [hqueue, Fifo.at_update_arrive (h.bound l)]
  have hnot : ∀ k, ¬ (s.queue l).At k t := h.not_at (by rw [hcase]; rfl) (by simp [hcase])
  have hspin : ∀ m, s.pc t ≠ .spin m := by simp [hcase]
  refine
    { nodup := by rw [hheld]; exact h.nodup
      fresh := h.fresh_step (fun u hu => ⟨hpcs u hu, by rw [hheld]⟩) fun m hm => ?_
      place := fun u m => ?_
      once := fun m j k u hj hk => ?_
      bound := fun m => ?_
      tail := fun m => ?_
      serves := fun m => ?_
      linked := fun m k u v htag hnext hk => ?_
      callOk := fun u => ?_ }
  · rw [hpct, hlock] at hm
    rw [hheld]
    exact h.fresh t m (by rw [hcase]; exact hm)
  · have hold := h.place u m
    simp only [hat, exists_or, ← hold]
    by_cases hu : u = t
    · subst hu
      have hnone : (s.pc u).queue = none := by rw [hcase]; rfl
      simp only [Queued, hpct, hq, hnone, hheld, Option.some.injEq, reduceCtorEq, false_or]
      constructor
      · rintro (rfl | hm)
        · exact Or.inr ⟨_, rfl, rfl, trivial⟩
        · exact Or.inl hm
      · rintro (hm | ⟨k, rfl, -⟩)
        · exact Or.inr hm
        · exact Or.inl rfl
    · simp [Queued, hpcs u hu, hheld, hu]
  · rw [hat] at hj hk
    -- an old place and the new one cannot both be the thread's
    rcases hj with hj | ⟨rfl, rfl, rfl⟩
    · rcases hk with hk | ⟨rfl, -, rfl⟩
      · exact h.once m j k u hj hk
      · exact absurd hj (hnot j)
    · rcases hk with hk | ⟨-, rfl, -⟩
      · exact absurd hk (hnot k)
      · rfl
  · rw [hqueue]
    have hlen : (s.queue m).arrivals <+:
        (Function.update s.queue l ((s.queue l).arrive t) m).arrivals := Fifo.arrivals_update_arrive
    rw [Fifo.departed_update_arrive]
    exact Nat.le_trans (h.bound m) hlen.length_le
  · rw [hqueue, hs']
    exact Fifo.last_update_arrive (h.bound l) h.tail m
  · rw [hqueue]
    have hholds : ∀ m u, Holds s' u m ↔ Holds s u m := ?_
    · exact Fifo.serves_update_arrive h.serves (h.bound l) hholds m
    intro m u
    by_cases hu : u = t
    · have hnone : (s.pc t).owned = none := by rw [hcase]; rfl
      rw [hu]
      simp only [Holds, hpct, ho, hnone, hheld]
    · simp [Holds, hpcs u hu, hheld]
  · have hnext' : s.next u = some v := by rw [hs'] at hnext; exact hnext
    rcases (hat m k u).mp hk with hk | ⟨rfl, rfl, rfl⟩
    · obtain ⟨hnew, hv⟩ := h.linked m k u v htag hnext' hk
      -- links between older arrivals stay
      exact ⟨(hat _ _ _).mpr (Or.inl hnew), spin_kept hpcs hspin hv⟩
    · -- what is left in the node's link is for another lock
      have hok := h.callOk u
      simp only [CallOk, hcase] at hok
      exact absurd htag hok.1
  · by_cases hu : u = t
    · rw [hu]
      exact hcall
    · refine (h.callOk u).frame (hpcs u hu) (by rw [hs']; rfl) (by rw [hs']; exact id)
        (fun _ _ => id) (fun m k v hv => (hat m k v).mpr (Or.inl hv))
        (fun m => by rw [hqueue, Fifo.departed_update_arrive]) fun m succ hw => ?_
      exact spin_kept hpcs hspin (h.woken hw).2

/-- The one at the front goes in. -/
theorem nested_enter (h : NestedInv s links) (hcase : s.pc t = .spin l)
    (hat : (s.queue l).At (s.queue l).departed t) : NestedInv (s.enter t l) links := by
  have hfresh : l ∉ s.held t := h.fresh t l (by rw [hcase]; rfl)
  have hpcs : ∀ u, u ≠ t → (s.enter t l).pc u = s.pc u := fun u hu => Function.update_of_ne hu ..
  have hpct : (s.enter t l).pc t = .idle := Function.update_self ..
  have hheldt : (s.enter t l).held t = l :: s.held t := Function.update_self ..
  have hhelds : ∀ u, u ≠ t → (s.enter t l).held u = s.held u := fun u hu =>
    Function.update_of_ne hu ..
  have hqueue : (s.enter t l).queue = Function.update s.queue l ((s.queue l).enter t) := rfl
  have hatq : ∀ m k u, ((s.enter t l).queue m).At k u ↔ (s.queue m).At k u := fun _ _ _ =>
    Fifo.at_update_enter
  -- it is not behind anybody
  have hsecond : ∀ m k, (s.queue m).departed ≤ k → (s.queue m).At (k + 1) t → m ≠ l := by
    rintro m k hk hnew rfl
    have := h.once m _ _ t hat hnew
    omega
  refine
    { nodup := fun u => ?_
      fresh := h.fresh_step (fun u hu => ⟨hpcs u hu, hhelds u hu⟩) fun m hm => ?_
      place := fun u m => ?_
      once := fun m j k u hj hk => h.once m j k u ((hatq ..).mp hj) ((hatq ..).mp hk)
      bound := fun m => ?_
      tail := fun m => ?_
      serves := fun m => ?_
      linked := fun m k u v htag hnext hk => ?_
      callOk := fun u => ?_ }
  · by_cases hu : u = t
    · rw [hu, hheldt]
      exact List.nodup_cons.mpr ⟨hfresh, h.nodup t⟩
    · rw [hhelds u hu]
      exact h.nodup u
  · rw [hpct] at hm
    cases hm
  · simp only [hatq, ← h.place u m]
    by_cases hu : u = t
    · simp [hu, Queued, hpct, hcase, hheldt, eq_comm]
    · simp [Queued, hpcs u hu, hhelds u hu]
  · rw [hqueue, Fifo.departed_update_enter, Fifo.arrivals_update_enter]
    exact h.bound m
  · have hlast : ((s.enter t l).queue m).last = (s.queue m).last := by
      rw [hqueue]
      unfold Fifo.last
      rw [Fifo.departed_update_enter, Fifo.arrivals_update_enter]
    exact (h.tail m).trans hlast.symm
  · have hothers : ∀ m u, u ≠ t ∨ m ≠ l → (Holds (s.enter t l) u m ↔ Holds s u m) := by
      intro m u hum
      by_cases hu : u = t
      · have hm : m ≠ l := hum.resolve_left fun hne => hne hu
        simp [hu, Holds, hpct, hcase, hheldt, hm]
      · simp [Holds, hpcs u hu, hhelds u hu]
    refine Fifo.serves_update_enter h.serves hat ?_ ?_ hothers m
    · simp [Holds, hcase, hfresh]
    · simp [Holds, hheldt]
  · obtain ⟨hnew, hv⟩ := h.linked m k u v htag hnext ((hatq ..).mp hk)
    refine ⟨(hatq ..).mpr hnew, ?_⟩
    -- no link leads to the front of a queue
    have hvt : v ≠ t := by
      rintro rfl
      rw [hcase] at hv
      exact hsecond m k ((hatq ..).mp hk).2 hnew (Pc.spin.inj hv).symm
    rw [hpcs v hvt, hv]
  · by_cases hu : u = t
    · rw [hu]
      simp only [CallOk, hpct]
    · refine (h.callOk u).frame (hpcs u hu) rfl id (fun _ _ => id)
        (fun m k v hv => (hatq ..).mpr hv) (fun m => Fifo.departed_update_enter) fun m succ hw => ?_
      obtain ⟨hnew, hspin⟩ := h.woken hw
      -- nor is the one at the front about to be woken
      have hst : succ ≠ t := by
        rintro rfl
        rw [hcase] at hspin
        exact hsecond m _ (Nat.le_refl _) hnew (Pc.spin.inj hspin).symm
      rw [hpcs succ hst, hspin]

theorem Pc.lock_of_owned {pc : Pc L T} (h : pc.owned = some l) : pc.lock = some l := by
  cases pc <;> first | exact h | cases h

theorem Pc.queue_of_owned {pc : Pc L T} (h : pc.owned = some l) : pc.queue = some l := by
  cases pc <;> first | exact h | cases h

/-- The lock is left: `Release` is over, and no flag is cleared but the one of
the next in the queue. -/
theorem NestedInv.depart (h : NestedInv s links) (ht : (s.pc t).owned = some l)
    (hpc : s'.pc = Function.update s.pc t .idle) (hheld : s'.held = s.held)
    (hnext : s'.next = s.next)
    (hqueue : s'.queue = Function.update s.queue l (s.queue l).depart)
    (htail : ∀ m, s'.tail m = (s'.queue m).last)
    (hlocked : ∀ u, (∀ m, s.pc u ≠ .spin m) → s'.locked u = s.locked u)
    (hfree : ∀ u m, s.pc u = .spin m → s'.locked u = false → s.locked u = false ∨
      (m = l ∧ (s.queue l).At ((s.queue l).departed + 1) u))
    (hlinking : ∀ u prev, s.pc u = .link l prev →
      ¬ (s.queue l).At ((s.queue l).departed + 1) u) : NestedInv s' links := by
  have hpct : s'.pc t = .idle := by rw [hpc]; exact Function.update_self ..
  have hpcs : ∀ u, u ≠ t → s'.pc u = s.pc u := by
    intro u hu
    rw [hpc]; exact Function.update_of_ne hu ..
  have hfresh : l ∉ s.held t := h.fresh t l (Pc.lock_of_owned ht)
  have hfront : (s.queue l).At (s.queue l).departed t := h.front (Or.inl ht)
  have hat : ∀ m k u, (s'.queue m).At k u ↔ (s.queue m).At k u ∧ (u ≠ t ∨ m ≠ l) :=
    fun m k u => by
      rw [hqueue]
      exact Fifo.at_update_depart_iff_ne hfront fun j hj => h.once l j _ t hj hfront
  have hsame : ∀ m, m ≠ l → s'.queue m = s.queue m := by
    intro m hm
    rw [hqueue, Function.update_of_ne hm]
  have hspin : ∀ m, s.pc t ≠ .spin m := by
    intro m hm
    rw [hm] at ht
    cases ht
  refine
    { nodup := by rw [hheld]; exact h.nodup
      fresh := h.fresh_step (fun u hu => ⟨hpcs u hu, by rw [hheld]⟩) fun m hm => ?_
      place := fun u m => ?_
      once := fun m j k u hj hk => h.once m j k u ((hat ..).mp hj).1 ((hat ..).mp hk).1
      bound := by rw [hqueue]; exact Fifo.departed_update_depart_le hfront h.bound
      tail := htail
      serves := fun m => ?_
      linked := fun m k u v htag hn hk => ?_
      callOk := fun u => ?_ }
  · rw [hpct] at hm
    cases hm
  · simp only [hat, exists_and_right, ← h.place u m]
    by_cases hu : u = t
    · have hqt : (s.pc t).queue = some l := Pc.queue_of_owned ht
      have hqt' : (s'.pc t).queue = none := by rw [hpct]; rfl
      -- leaving `l` leaves the locks that the thread holds besides
      have hne : m ∈ s.held t → m ≠ l := by
        rintro hm rfl
        exact hfresh hm
      rw [hu]
      simp only [Queued, hheld, hqt, hqt', Option.some.injEq, reduceCtorEq, false_or, ne_eq,
        not_true_eq_false]
      constructor
      · intro hm
        exact ⟨Or.inr hm, hne hm⟩
      · rintro ⟨hm | hm, hml⟩
        · exact absurd hm.symm hml
        · exact hm
    · simp [Queued, hpcs u hu, hheld, hu]
  · rw [hqueue]
    have hot' : (s'.pc t).owned = none := by rw [hpct]; rfl
    have hothers : ∀ m u, u ≠ t ∨ m ≠ l → (Holds s' u m ↔ Holds s u m) := by
      intro m u hum
      by_cases hu : u = t
      · have hm : m ≠ l := hum.resolve_left fun hne => hne hu
        rw [hu]
        simp only [Holds, ht, hot', hheld, Option.some.injEq, reduceCtorEq, false_or]
        exact (or_iff_right hm.symm).symm
      · simp only [Holds, hpcs u hu, hheld]
    refine Fifo.serves_update_depart h.serves (Or.inl ht) ?_ hothers m
    simpa [Holds, hpct, hheld] using hfresh
  · rw [hnext] at hn
    obtain ⟨hold, hut⟩ := (hat ..).mp hk
    obtain ⟨hnew, hv⟩ := h.linked m k u v htag hn hold
    refine ⟨(hat ..).mpr ⟨hnew, ?_⟩, spin_kept hpcs hspin hv⟩
    refine Or.inl ?_
    rintro rfl
    rw [hv] at ht
    cases ht
  · by_cases hu : u = t
    · rw [hu]
      simp only [CallOk, hpct]
    · have hok := h.callOk u
      have hatu : ∀ m k, (s.queue m).At k u → (s'.queue m).At k u := fun m k hk =>
        (hat ..).mpr ⟨hk, Or.inl hu⟩
      unfold CallOk at hok ⊢
      rw [hpcs u hu]
      cases hcase : s.pc u <;> rw [hcase] at hok <;> simp only at hok ⊢
      case setLocked m => exact hok
      case swapTail m =>
        rw [hlocked u fun _ => by simp [hcase]]
        exact hok
      case link m prev =>
        rw [hlocked u fun _ => by simp [hcase]]
        obtain ⟨hl, k, hprev, hk⟩ := hok
        refine ⟨hl, k, (hat ..).mpr ⟨hprev, ?_⟩, hatu m _ hk⟩
        -- the one that leaves has no waiter that is still to store its link
        by_contra hboth
        obtain ⟨rfl, rfl⟩ : prev = t ∧ m = l := by simpa [not_or] using hboth
        have hkd := h.once m _ _ prev hprev hfront
        exact hlinking u prev hcase (hkd ▸ hk)
      case spin m =>
        intro hf
        by_cases hm : m = l
        · subst hm
          -- the front moves on to the one whose flag was cleared
          have hdep : (s'.queue m).departed = (s.queue m).departed + 1 := by
            rw [hqueue, Function.update_self]
            rfl
          rw [hdep]
          rcases hfree u m hcase hf with hold | ⟨-, hsucc⟩
          · exact absurd ((hok hold).unique hfront) hu
          · exact hatu m _ hsucc
        · rw [hsame m hm]
          exact hok ((hfree u m hcase hf).resolve_right fun h' => hm h'.1)
      case loadNext m =>
        rw [hnext]
        exact hok
      case wake m succ =>
        have hm : m ≠ l := by
          rintro rfl
          exact hu ((h.front (Or.inl (by rw [hcase]; rfl))).unique hfront)
        rw [hsame m hm]
        exact ⟨hok.1, spin_kept hpcs hspin hok.2⟩

/-- The next access of the same call, with the thread where it was in the
queues. -/
theorem nested_goto (h : NestedInv s links) {s₁ : State L T} {pc : Pc L T}
    (hsame : s₁.pc = s.pc ∧ s₁.held = s.held ∧ s₁.queue = s.queue ∧ s₁.tail = s.tail)
    (hothers : ∀ u, u ≠ t → s₁.next u = s.next u ∧ s₁.locked u = s.locked u ∧
      links'.tag u = links.tag u)
    (hspin : ∀ l, s.pc t ≠ .spin l) (hlock : pc.lock = (s.pc t).lock)
    (hq : pc.queue = (s.pc t).queue) (ho : pc.owned = (s.pc t).owned)
    (hlink : ∀ l v, links'.tag t = some l → s₁.next t = some v →
      links.tag t = some l ∧ s.next t = some v)
    (hcall : CallOk (s₁.goto t pc) links' t) : NestedInv (s₁.goto t pc) links' := by
  obtain ⟨hpc, hheld, hqueue, htail⟩ := hsame
  have hpct : (s₁.goto t pc).pc t = pc := Function.update_self ..
  have hheld' : (s₁.goto t pc).held = s.held := hheld
  refine h.quiet (t := t) hqueue htail (fun u hu => ⟨?_, by rw [hheld'], hothers u hu⟩) hspin
    (by rw [hheld']; exact h.nodup t) (fun l hl => ?_) (fun l => ?_) (fun l => ?_) hlink hcall
  · simp [State.goto, hu, hpc]
  · rw [hpct, hlock] at hl
    rw [hheld']
    exact h.fresh t l hl
  · simp only [Queued, hpct, hq, hheld']
  · simp only [Holds, hpct, ho, hheld']

/-- An access of `Release` that only reads. -/
theorem nested_read (h : NestedInv s links) (howned : (s.pc t).owned = some l) {pc : Pc L T}
    (ho : pc.owned = some l) (htag : links'.tag = links.tag)
    (hcall : CallOk (s.goto t pc) links' t) : NestedInv (s.goto t pc) links' := by
  refine nested_goto h ⟨rfl, rfl, rfl, rfl⟩ (fun u _ => ⟨rfl, rfl, by rw [htag]⟩) (fun m hm => ?_)
    ?_ ?_ (ho.trans howned.symm) (fun m v hm hv => ⟨htag ▸ hm, hv⟩) hcall
  · rw [hm] at howned
    cases howned
  · exact (Pc.lock_of_owned ho).trans (Pc.lock_of_owned howned).symm
  · exact (Pc.queue_of_owned ho).trans (Pc.queue_of_owned howned).symm

theorem nested_acquire (h : NestedInv s links) (hidle : s.pc t = .idle) (hl : l ∉ s.held t) :
    NestedInv (s.goto t (.clearNext l)) links := by
  have hpct : (s.goto t (.clearNext l)).pc t = .clearNext l := Function.update_self ..
  refine h.quiet (t := t) rfl rfl (fun u hu => ⟨Function.update_of_ne hu .., rfl, rfl, rfl, rfl⟩)
    (by simp [hidle]) (h.nodup t) (fun m hm => ?_) (fun m => ?_) (fun m => ?_)
    (fun _ _ => And.intro) ?_
  · rw [hpct] at hm
    obtain rfl := Option.some.inj hm
    exact hl
  · simp [Queued, hidle, State.goto]
  · simp [Holds, hidle, State.goto]
  · simp only [CallOk, hpct]

theorem nested_release (h : NestedInv s links) (hidle : s.pc t = .idle) (hl : l ∈ s.held t) :
    NestedInv ({ s with held := Function.update s.held t ((s.held t).erase l) }.goto t
      (.checkNext l)) links := by
  set s' := ({ s with held := Function.update s.held t ((s.held t).erase l) } : State L T).goto t
    (.checkNext l) with hs'
  have hpct : s'.pc t = .checkNext l := Function.update_self ..
  have hheldt : s'.held t = (s.held t).erase l := Function.update_self ..
  -- inside the release the thread still owns what it held
  have hmem : ∀ m, l = m ∨ m ∈ (s.held t).erase l ↔ m ∈ s.held t := by
    intro m
    rw [(h.nodup t).mem_erase_iff]
    by_cases hm : m = l
    · simp [hm, hl]
    · simp [hm, Ne.symm hm]
  refine h.quiet (t := t) rfl rfl (fun u hu => ?_) (by simp [hidle]) ?_ (fun m hm => ?_)
    (fun m => ?_) (fun m => ?_) (fun _ _ => And.intro) ?_
  · simp [hs', State.goto, hu]
  · rw [hheldt]
    exact (h.nodup t).erase l
  · rw [hpct] at hm
    obtain rfl := Option.some.inj hm
    rw [hheldt]
    exact (h.nodup t).not_mem_erase
  · simp [Queued, hpct, hidle, hheldt, hmem]
  · simp [Holds, hpct, hidle, hheldt, hmem]
  · simp only [CallOk, hpct]

/-- `tail.exchange(&myNode)` -/
theorem nested_swapTail (h : NestedInv s links) (hcase : s.pc t = .swapTail l)
    (hs : proceed s t (.swapTail l) = some s') : NestedInv s' links := by
  have hok := h.callOk t
  simp only [CallOk, hcase] at hok
  obtain ⟨-, hlocked⟩ := hok
  -- the thread in the queue, before it looks at what it found
  let s₁ (pc : Pc L T) : State L T := { s with
    tail := Function.update s.tail l (some t)
    queue := Function.update s.queue l ((s.queue l).arrive t)
    ticket := Function.update s.ticket t (s.queue l).arrivals.length }.goto t pc
  have hpct : ∀ pc, (s₁ pc).pc t = pc := fun pc => Function.update_self ..
  have hat : ∀ pc k u, ((s₁ pc).queue l).At k u ↔
      (s.queue l).At k u ∨ (k = (s.queue l).arrivals.length ∧ u = t) := by
    intro pc k u
    rw [show (s₁ pc).queue l = (s.queue l).arrive t from Function.update_self ..,
      Fifo.at_arrive (h.bound l)]
  simp only [proceed] at hs
  cases htail : s.tail l with
  | none =>
    rw [htail] at hs
    have hwait : NestedInv (s₁ (.spin l)) links := by
      refine nested_arrive h hcase rfl rfl rfl rfl ?_
      simp only [CallOk, hpct]
      intro hfree
      rw [show (s₁ (.spin l)).locked t = s.locked t from rfl, hlocked] at hfree
      cases hfree
    have hempty := (Fifo.last_eq_none_iff (h.bound l)).mp ((h.tail l).symm.trans htail)
    have hdep : ((s₁ (.spin l)).queue l).departed = (s.queue l).departed :=
      Fifo.departed_update_arrive
    have henter := nested_enter hwait (hpct _) ((hat ..).mpr (Or.inr ⟨hdep.trans hempty, rfl⟩))
    have heq : (s₁ (.spin l)).enter t l = s' := by
      rw [← Option.some.inj hs]
      simp [s₁, State.enter, State.goto]
    exact heq ▸ henter
  | some prev =>
    rw [htail] at hs
    obtain rfl := Option.some.inj hs
    have hlast := Fifo.at_of_last (h.bound l) ((h.tail l).symm.trans htail)
    have hlen := hlast.lt
    have hcall : CallOk (s₁ (.link l prev)) links t := by
      simp only [CallOk, hpct]
      refine ⟨hlocked, _, (hat ..).mpr (Or.inl hlast), (hat ..).mpr (Or.inr ⟨?_, rfl⟩)⟩
      omega
    exact nested_arrive h hcase rfl rfl rfl rfl hcall

/-- `Release` finds nobody behind it. -/
theorem nested_casTail (h : NestedInv s links) (hcase : s.pc t = .casTail l)
    (htail : s.tail l = some t) :
    NestedInv ({ s with tail := Function.update s.tail l none }.depart t l) links := by
  have hfront : (s.queue l).At (s.queue l).departed t := h.front (Or.inl (by rw [hcase]; rfl))
  -- `t` is both first and last
  have hlast : (s.queue l).departed + 1 = (s.queue l).arrivals.length := by
    have hlt := hfront.lt
    have hend := Fifo.at_of_last (h.bound l) ((h.tail l).symm.trans htail)
    have := h.once l _ _ t hend hfront
    omega
  have hnext : ∀ u, ¬ (s.queue l).At ((s.queue l).departed + 1) u := by
    intro u hu
    have := hu.lt
    omega
  refine h.depart (t := t) (l := l) (by rw [hcase]; rfl) rfl rfl rfl rfl (fun m => ?_)
    (fun _ _ => rfl) (fun _ _ _ hf => Or.inl hf) fun u _ _ => hnext u
  show Function.update s.tail l none m = (Function.update s.queue l (s.queue l).depart m).last
  by_cases hm : m = l
  · subst hm
    rw [Function.update_self, Function.update_self]
    exact (if_pos hlast).symm
  · rw [Function.update_of_ne hm, Function.update_of_ne hm]
    exact h.tail m

/-- `Release` clears the flag of the next in the queue. -/
theorem nested_wake {succ : T} (h : NestedInv s links) (hcase : s.pc t = .wake l succ) :
    NestedInv ({ s with locked := Function.update s.locked succ false }.depart t l) links := by
  obtain ⟨hsucc, hspin⟩ := h.woken hcase
  have hlen := hsucc.lt
  refine h.depart (t := t) (l := l) (by rw [hcase]; rfl) rfl rfl rfl rfl (fun m => ?_)
    (fun u hu => ?_) (fun u m hu hf => ?_) fun u prev hu hatu => ?_
  · show s.tail m = (Function.update s.queue l (s.queue l).depart m).last
    -- somebody is behind `t`, so the tail stays
    by_cases hm : m = l
    · subst hm
      rw [Function.update_self, h.tail m]
      unfold Fifo.last
      rw [if_neg (by omega), if_neg (by simp [Fifo.depart]; omega)]
      rfl
    · rw [Function.update_of_ne hm]
      exact h.tail m
  · have hus : u ≠ succ := by
      rintro rfl
      exact hu l hspin
    exact Function.update_of_ne hus ..
  · by_cases hus : u = succ
    · subst hus
      rw [hspin] at hu
      exact Or.inr ⟨(Pc.spin.inj hu).symm, hsucc⟩
    · exact Or.inl ((Function.update_of_ne hus ..).symm.trans hf)
  · -- the next in the queue spins, its link is stored
    rw [hatu.unique hsucc, hspin] at hu
    cases hu

/-! ## Runs -/

theorem nested_proceed (h : NestedInv x.1 x.2) (hs : nestedStep x (.advance t) = some y)
    (hy : OwnLinks y) : NestedInv y.1 y.2 := by
  obtain ⟨s, links⟩ := x
  obtain ⟨s', links'⟩ := y
  obtain ⟨hstep, hnote⟩ := withHistory_eq_some.mp hs
  change proceed s t (s.pc t) = some s' at hstep
  change links' = noteLink links s (.advance t) at hnote
  have hok := h.callOk t
  cases hcase : s.pc t <;> rw [hcase] at hstep <;> simp only [noteLink, hcase] at hnote <;>
    simp only [CallOk, hcase] at hok <;> subst hnote
  case clearNext l =>
    -- from here on the node has no link of this lock's queue
    obtain rfl := Option.some.inj hstep
    refine nested_goto h ⟨rfl, rfl, rfl, rfl⟩ (fun u hu => by simp [hu]) (by simp [hcase])
      (by rw [hcase]; rfl) (by rw [hcase]; rfl) (by rw [hcase]; rfl) ?_ ?_
    · simp
    · simp [CallOk, State.goto]
  case setLocked l =>
    obtain rfl := Option.some.inj hstep
    refine nested_goto h ⟨rfl, rfl, rfl, rfl⟩ (fun u hu => by simp [hu]) (by simp [hcase])
      (by rw [hcase]; rfl) (by rw [hcase]; rfl) (by rw [hcase]; rfl) (fun _ _ => And.intro) ?_
    simpa [CallOk, State.goto] using hok
  case swapTail l => exact nested_swapTail h hcase hstep
  case link l prev =>
    obtain rfl := Option.some.inj hstep
    exact nested_link h hcase
  case spin l =>
    simp only [proceed] at hstep
    split at hstep
    · exact Option.some.inj hstep ▸ h
    · -- the flag is cleared for the front of the queue only
      rename_i hfree
      obtain rfl := Option.some.inj hstep
      exact nested_enter h hcase (hok (by simpa using hfree))
  case checkNext l =>
    -- a link of whatever lock makes `Release` skip the tail
    simp only [proceed] at hstep
    split at hstep
    · obtain rfl := Option.some.inj hstep
      refine nested_read h (by rw [hcase]; rfl) rfl rfl ?_
      simp [CallOk, State.goto]
    · rename_i hnext
      obtain rfl := Option.some.inj hstep
      refine nested_read h (by rw [hcase]; rfl) rfl rfl ?_
      simpa [CallOk, State.goto] using hnext
  case casTail l =>
    simp only [proceed] at hstep
    split at hstep
    · rename_i htail
      obtain rfl := Option.some.inj hstep
      exact nested_casTail h hcase htail
    · obtain rfl := Option.some.inj hstep
      refine nested_read h (by rw [hcase]; rfl) rfl rfl ?_
      simp [CallOk, State.goto]
  case awaitNext l =>
    simp only [proceed] at hstep
    split at hstep
    · exact Option.some.inj hstep ▸ h
    · rename_i hnext
      obtain rfl := Option.some.inj hstep
      refine nested_read h (by rw [hcase]; rfl) rfl rfl ?_
      simpa [CallOk, State.goto] using hnext
  case loadNext l =>
    simp only [proceed] at hstep
    cases hnext : s.next t with
    | none => exact absurd hnext hok
    | some succ =>
      rw [hnext] at hstep
      obtain rfl := Option.some.inj hstep
      -- the link is the lock's own, so it leads to the next arrival
      have htag : links.tag t = some l := by
        have := hy t l ⟨succ, Function.update_self ..⟩
        simpa using this
      have hfront := h.front (Or.inl (show (s.pc t).owned = some l by rw [hcase]; rfl))
      obtain ⟨hsucc, hspin⟩ := h.linked l _ t succ htag hnext hfront
      refine nested_read h (by rw [hcase]; rfl) rfl rfl ?_
      have hne : succ ≠ t := by
        rintro rfl
        rw [hcase] at hspin
        cases hspin
      have hpct : (s.goto t (.wake l succ)).pc t = .wake l succ := Function.update_self ..
      simp only [CallOk, hpct]
      exact ⟨hsucc, (Function.update_of_ne hne ..).trans hspin⟩
  case wake l succ =>
    obtain rfl := Option.some.inj hstep
    exact nested_wake h hcase
  all_goals cases hstep

theorem nested_step (h : NestedInv x.1 x.2) (hs : nestedStep x a = some y) (hy : OwnLinks y) :
    NestedInv y.1 y.2 := by
  cases a with
  | acquire t l =>
    obtain ⟨hstep, hnote⟩ := withHistory_eq_some.mp hs
    obtain ⟨⟨hidle, hl⟩, hstep⟩ := Option.ite_none_right_eq_some.mp hstep
    rw [hnote, ← Option.some.inj hstep]
    exact nested_acquire h hidle (notHeld_iff.mp hl)
  | release t l =>
    obtain ⟨hstep, hnote⟩ := withHistory_eq_some.mp hs
    obtain ⟨⟨hidle, hl⟩, hstep⟩ := Option.ite_none_right_eq_some.mp hstep
    rw [hnote, ← Option.some.inj hstep]
    exact nested_release h hidle hl
  | advance t => exact nested_proceed h hs hy

theorem reachable_nested (h : ReachableWithin nestedStep OwnLinks (nestedInit : State L T × _) x) :
    NestedInv x.1 x.2 :=
  h.invariant (I := fun x => NestedInv x.1 x.2) (fun _ => nestedInv_init)
    fun _ _ _ hI _ hy hs => nested_step hI hs hy

/-! ## Independence -/

/-- The only flag that a step of `Release` changes. -/
theorem NestedInv.cleared (h : NestedInv x.1 x.2) (ht : (x.1.pc t).owned = some l)
    (hs : nestedStep x (.advance t) = some y) (hu : y.1.locked u ≠ x.1.locked u) :
    (x.1.queue l).At ((x.1.queue l).departed + 1) u := by
  obtain ⟨hstep, -⟩ := withHistory_eq_some.mp hs
  change proceed x.1 t (x.1.pc t) = some y.1 at hstep
  have hok := h.callOk t
  cases hcase : x.1.pc t <;> rw [hcase] at hstep ht <;> simp only [proceed] at hstep <;>
    simp only [CallOk, hcase] at hok
  case wake k succ =>
    obtain rfl := Option.some.inj ht
    by_cases hus : u = succ
    · rw [hus]
      exact hok.1
    · rw [← Option.some.inj hstep] at hu
      exact absurd (Function.update_of_ne hus ..) hu
  case loadNext k =>
    cases hnext : x.1.next t with
    | none => exact absurd hnext hok
    | some succ =>
      rw [hnext] at hstep
      exact absurd (congrArg (fun s => s.locked u) (Option.some.inj hstep)).symm hu
  case checkNext k | casTail k | awaitNext k =>
    -- the other accesses of `Release` store nothing to a flag
    split at hstep <;>
      exact absurd (congrArg (fun s => s.locked u) (Option.some.inj hstep)).symm hu
  all_goals cases ht

/-- A waiter that may go on has nobody in front of it. -/
theorem NestedInv.barred (h : NestedInv s links) (hcase : s.pc u = .spin l)
    (hfree : s.locked u = false) (t : T) : ¬ Holds s t l := by
  intro hholds
  have hok := h.callOk u
  simp only [CallOk, hcase] at hok
  -- at the front there is only the holder, and the waiter is none
  obtain rfl := (hok hfree).unique (h.front hholds)
  have hfresh := h.fresh u l (by rw [hcase]; rfl)
  simp [Holds, hcase, hfresh] at hholds

@[simp] theorem State.goto_goto (s : State L T) (t : T) (pc pc' : Pc L T) :
    (s.goto t pc).goto t pc' = s.goto t pc' := by
  simp [State.goto]

/-- A thread that releases one of its locks while the link in its node is for
another one lets a waiter of the other one through. -/
theorem NestedInv.leak (h : NestedInv s links) (hidle : s.pc t = .idle) (hl : l ∈ s.held t)
    (hm : m ∈ s.held t) (hlm : l ≠ m) (htag : links.tag t = some m) (hnext : s.next t = some u) :
    ∃ y, perform nestedStep (fun _ => True) (s, links)
        [.release t l, .advance t, .advance t, .advance t] = some y ∧
      y.1.pc u = .spin m ∧ y.1.locked u = false ∧ Holds y.1 t m := by
  -- the thread is in the queue of `m`, so its link leads to a waiter for `m`
  obtain ⟨k, hk⟩ := (h.place t m).mp (Or.inr hm)
  obtain ⟨-, hspin⟩ := h.linked m k t u htag hnext hk
  have hut : u ≠ t := by
    rintro rfl
    rw [hidle] at hspin
    cases hspin
  -- the states of the call: begun, link found, link loaded, flag cleared
  let s₀ : State L T := { s with held := Function.update s.held t ((s.held t).erase l) }
  let links' : Links L T := { links with loaded := Function.update links.loaded t (some m) }
  let s₄ : State L T := { s₀.goto t (.wake l u) with
    locked := Function.update s.locked u false }.depart t l
  have hpct : ∀ pc, (s₀.goto t pc).pc t = pc := fun pc => Function.update_self ..
  have hnext' : ∀ pc, (s₀.goto t pc).next t = some u := fun _ => hnext
  have h₁ : nestedStep (s, links) (.release t l) = some (s₀.goto t (.checkNext l), links) :=
    withHistory_eq_some.mpr ⟨if_pos ⟨hidle, hl⟩, rfl⟩
  have h₂ : nestedStep (s₀.goto t (.checkNext l), links) (.advance t) =
      some (s₀.goto t (.loadNext l), links) := by
    refine withHistory_eq_some.mpr ⟨?_, by simp [noteLink, hpct]⟩
    show proceed (s₀.goto t (.checkNext l)) t ((s₀.goto t (.checkNext l)).pc t) = _
    simp [proceed, hpct, hnext']
  have h₃ : nestedStep (s₀.goto t (.loadNext l), links) (.advance t) =
      some (s₀.goto t (.wake l u), links') := by
    refine withHistory_eq_some.mpr ⟨?_, by simp [noteLink, hpct, links', htag]⟩
    show proceed (s₀.goto t (.loadNext l)) t ((s₀.goto t (.loadNext l)).pc t) = _
    simp [proceed, hpct, hnext']
  have h₄ : nestedStep (s₀.goto t (.wake l u), links') (.advance t) = some (s₄, links') := by
    refine withHistory_eq_some.mpr ⟨?_, by simp [noteLink, hpct]⟩
    show proceed (s₀.goto t (.wake l u)) t ((s₀.goto t (.wake l u)).pc t) = _
    rw [hpct]
    rfl
  refine ⟨(s₄, links'), by simp [perform, h₁, h₂, h₃, h₄], ?_, Function.update_self .., Or.inr ?_⟩
  · simp [s₄, s₀, State.depart, State.goto, hut, hspin]
  · simpa [s₄, s₀, State.depart, State.goto] using (List.mem_erase_of_ne hlm.symm).mpr hm

/-- The runs in which every `Release` loads a link that was stored for its own
lock: it clears the flag of the next in its own queue only, a waiter gets its
lock from that lock's holder, and every lock has one holder at most. And only
then: a `Release` by a thread whose link is for another lock that it holds lets
the waiter of that lock through. -/
theorem mcs_independent
    (h : ReachableWithin nestedStep OwnLinks (nestedInit : State L T × Links L T) x) :
    (∀ t l y, (x.1.pc t).owned = some l → nestedStep x (.advance t) = some y →
      ∀ u, y.1.locked u ≠ x.1.locked u →
        (x.1.queue l).At ((x.1.queue l).departed + 1) u) ∧
    (∀ u l, x.1.pc u = .spin l → x.1.locked u = false → ∀ t, ¬ Holds x.1 t l) ∧
    (∀ l t u, Holds x.1 t l → Holds x.1 u l → t = u) ∧
    (∀ t l m u, x.1.pc t = .idle → l ∈ x.1.held t → m ∈ x.1.held t → l ≠ m →
      x.2.tag t = some m → x.1.next t = some u →
      ∃ y, perform nestedStep (fun _ => True) x
          [.release t l, .advance t, .advance t, .advance t] = some y ∧
        y.1.pc u = .spin m ∧ y.1.locked u = false ∧ Holds y.1 t m) := by
  have hI := reachable_nested h
  refine ⟨fun t l y ht hs u hu => ?_, fun u l hcase hfree => ?_, fun l t u ht hu => ?_,
    fun t l m u hidle hl hm hlm htag hnext => ?_⟩
  · exact hI.cleared ht hs hu
  · exact hI.barred hcase hfree
  · exact (hI.serves l).exclusive ht hu
  · exact hI.leak hidle hl hm hlm htag hnext

/-- A thread holds two locks; somebody waits for the second one, and gets it. -/
def handOverInner : List (Action Bool Bool) :=
  [.acquire false false, .advance false, .advance false, .advance false, .acquire false true,
    .advance false, .advance false, .advance false, .acquire true true, .advance true,
    .advance true, .advance true, .advance true, .release false true, .advance false,
    .advance false, .advance false, .advance true]

theorem mcs_independent_handOverInner :
    ∃ x : State Bool Bool × Links Bool Bool,
      perform nestedStep OwnLinks nestedInit handOverInner = some x ∧
      ∀ l t u, Holds x.1 t l → Holds x.1 u l → t = u := by
  obtain ⟨x, hx⟩ := Option.isSome_iff_exists.mp
    (show (perform nestedStep OwnLinks (nestedInit : State Bool Bool × Links Bool Bool)
      handOverInner).isSome = true by decide)
  exact ⟨x, hx, (mcs_independent ((ReachableWithin.start (by decide)).of_perform hx)).2.2.1⟩

/-- The same, but the second thread waits for the first lock. -/
def releaseInner : List (Action Bool Bool) :=
  [.acquire false false, .advance false, .advance false, .advance false, .acquire false true,
    .advance false, .advance false, .advance false, .acquire true false, .advance true,
    .advance true, .advance true, .advance true, .release false true, .advance false,
    .advance false, .advance false, .advance true]

/-- Two threads hold the lock. -/
theorem mcs_shared_releaseInner :
    ∃ x : State Bool Bool × Links Bool Bool,
      Reachable nestedStep nestedInit x ∧ Holds x.1 false false ∧ Holds x.1 true false := by
  obtain ⟨x, hx⟩ := Option.isSome_iff_exists.mp
    (show (perform nestedStep (fun _ => True) (nestedInit : State Bool Bool × Links Bool Bool)
      releaseInner).isSome = true by decide)
  have hend : (perform nestedStep (fun _ => True)
      (nestedInit : State Bool Bool × Links Bool Bool) releaseInner).map
      (fun x => (x.1.held false, x.1.held true)) = some ([false], [false]) := by decide
  rw [hx] at hend
  obtain ⟨h₁, h₂⟩ := by simpa using hend
  exact ⟨x, (ReachableWithin.start trivial).of_perform hx, Or.inr (by rw [h₁]; decide),
    Or.inr (by rw [h₂]; decide)⟩

end LockShield.Mcs
