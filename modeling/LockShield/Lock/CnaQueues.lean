import LockShield.Lock.CnaSteps

/-!
# The two queues of `CNALock`

The main queue hangs at the holder's node and the secondary queue at its `spin`,
except while `Release` takes them apart. From the store in `find_successor` that
cuts the prefix off, and from the exchange of the tail for the secondary queue's
last node, to the store that lets the next holder in, the main queue begins with
the node that is let in.

## Results

* `Inv.granted_iff`, `Inv.waits_iff` — who has the lock and who waits, read off the nodes.
* `Inv.mainQueue`, `Inv.secondaryQueue` — the links of the two queues.
* `cna_queues`             — in every reachable state, the waiters are in one of two linked
  queues each, and never in both.
* `cna_queues_taken_apart` — a state in which the queues do not hang at the holder.
-/

set_option linter.unusedSectionVars false

namespace LockShield.Cna

open Lib

variable {T : Type} [DecidableEq T] {s s' : State T} {t u o x y : T} {main sec : List T}

/-- The thread has the lock: it got it from the exchange or from a store to its
`spin`, and has not passed it on. -/
def Granted (s : State T) (t : T) : Prop :=
  match s.pc t with
  | .idle => s.holding t = true
  | .spin => s.spin t ≠ .zero
  | .clearNext | .clearSpin | .swapTail | .link _ | .crashed => False
  | _ => True

/-- The thread is behind the exchange and has not been granted the lock. -/
def Waits (s : State T) (t : T) : Prop :=
  (∃ p, s.pc t = .link p) ∨ (s.pc t = .spin ∧ s.spin t = .zero)

/-- The thread is in a call or between its `Acquire` and its `Release`. -/
def Uses (s : State T) (t : T) : Prop := s.pc t ≠ .idle ∨ s.holding t = true

/-- `y` is behind `x`, or about to be. -/
def LinkedFrom (s : State T) (x y : T) : Prop := s.next x = some y ∨ s.pc y = .link x

/-- The node whose address is in `spin`. -/
def Spin.pointer : Spin T → Option T
  | .zero | .one => none
  | .node t => some t

/-- A splice is in progress: something is already linked behind the secondary
queue, and is not yet part of it. -/
def Pc.splicing : Pc T → Bool
  | .cut .. | .grantFlush _ => true
  | _ => false

/-- The main queue, up to the tail: from the holder's node, or from the successor
that is about to be let in. -/
structure MainQueue (s : State T) (o : T) (main : List T) : Prop where
  linked : (s.pc o).successor = none → (o :: main).IsChain (LinkedFrom s)
  first : ∀ succ, (s.pc o).successor = some succ → main.head? = some succ ∧
    main.IsChain (LinkedFrom s)
  tail : s.tail = some (main.getLastD o)
  last : ∀ y, ¬ LinkedFrom s (main.getLastD o) y

/-- What the pointer in the holder's `spin` says about the secondary queue. -/
def Headed (s : State T) (o : T) (sec : List T) : Prop :=
  match s.pc o with
  -- the whole secondary queue is the main queue already
  | .grantSec _ => sec = []
  -- the prefix from `head` is not the secondary queue yet
  | .cut head _ _ => (s.spin o).pointer = sec.head? ∨ (sec = [] ∧ s.spin o = .node head)
  | _ => (s.spin o).pointer = sec.head?

/-- The secondary queue, from the holder's `spin` to the head's `secTail`. -/
structure SecondaryQueue (s : State T) (o : T) (sec : List T) : Prop where
  linked : sec.IsChain fun x y => s.next x = some y
  headed : Headed s o sec
  ended : (∀ last succ, s.pc o ≠ .setSecTail last succ) →
    ∀ x, sec.head? = some x → s.secTail x = sec.getLast?
  closed : (s.pc o).splicing = false → ∀ x, sec.getLast? = some x → s.next x = none

/-- The waiters are in the two queues, each in one of them and once. -/
def Partition (s : State T) (main sec : List T) : Prop :=
  (main ++ sec).Nodup ∧ ∀ t, Waits s t ↔ t ∈ main ∨ t ∈ sec

/-! ### The queues and the invariant -/

theorem Linked.linkedFrom (h : Linked s x y) : LinkedFrom s x y := by
  unfold Linked at h
  split at h
  · rename_i p hcase
    exact Or.inr (by rw [hcase, h.1])
  · exact Or.inl h

theorem secSpin_pointer : (secSpin sec).pointer = sec.head? := by
  cases sec <;> rfl

theorem Inv.granted_iff (h : Inv s) : Granted s t ↔ s.owner = some t := by
  constructor
  · intro hg
    by_contra ho
    unfold Granted at hg
    by_cases hm : t ∈ s.main ∨ t ∈ s.sec
    · -- a waiter's `spin` is 0
      have hwait : s.spin t = .zero ∧ (s.pc t = .spin ∨ ∃ p, s.pc t = .link p) :=
        hm.elim (h.inMain t) fun hs => ⟨(h.inSec t hs).1, Or.inl (h.inSec t hs).2⟩
      obtain ⟨hz, hpc | ⟨p, hp⟩⟩ := hwait
      · rw [hpc] at hg
        exact hg hz
      · rw [hp] at hg
        exact hg
    · have hok := h.outside t fun hmem => hmem.elim ho hm
      unfold OutsideOk at hok
      cases hcase : s.pc t <;> rw [hcase] at hok hg <;> simp only at hok hg
      case idle =>
        rw [hok] at hg
        cases hg
  · intro ho
    have hok := h.ownerOk t ho
    unfold OwnerOk at hok
    unfold Granted
    cases hcase : s.pc t <;> rw [hcase] at hok <;> simp only at hok ⊢
    case idle => exact hok.2
    case spin =>
      rw [hok.2.1]
      exact secSpin_ne_zero

theorem Inv.waits_iff (h : Inv s) : Waits s t ↔ t ∈ s.main ∨ t ∈ s.sec := by
  constructor
  · rintro (⟨p, hp⟩ | ⟨hpc, hz⟩)
    · exact Or.inl (h.linking_main hp)
    · by_contra hm
      by_cases ho : s.owner = some t
      · -- the owner's `spin` is not 0
        have hok := h.ownerOk t ho
        simp only [OwnerOk, hpc] at hok
        rw [hok.2.1] at hz
        exact secSpin_ne_zero hz
      · have hok := h.outside t fun hmem => hmem.elim ho hm
        simp only [OutsideOk, hpc] at hok
  · rintro (hm | hs)
    · obtain ⟨hz, hpc | hlink⟩ := h.inMain t hm
      · exact Or.inr ⟨hpc, hz⟩
      · exact Or.inl hlink
    · exact Or.inr ⟨(h.inSec t hs).2, (h.inSec t hs).1⟩

/-- Nobody is behind the last node of the main queue, or about to be. -/
theorem Inv.last_unlinked (h : Inv s) (ho : s.owner = some o) :
    ¬ LinkedFrom s (s.main.getLastD o) y := by
  rintro (hy | hy)
  · rw [(h.tail o ho).2] at hy
    cases hy
  · exact h.pending_not_last ho hy rfl

/-- Two threads never link themselves to the same node. -/
theorem Inv.pending_unique {p : T} (h : Inv s) (hx : s.pc x = .link p) (hy : s.pc y = .link p) :
    x = y := by
  obtain ⟨o, ho⟩ := h.owner_of_main (h.linking_main hx)
  have hom := (h.apart o ho).1
  have hnodup := (List.nodup_append.mp h.nodup).1
  rcases (h.pending ho hx).2, (h.pending ho hy).2 with
    ⟨⟨rfl, hhead⟩ | ⟨pre, post, hsplit⟩, ⟨hpo, hhead'⟩ | ⟨pre', post', hsplit'⟩⟩
  · exact Option.some.inj (hhead.symm.trans hhead')
  · exact absurd (by rw [hsplit']; simp) hom
  · subst hpo
    exact absurd (by rw [hsplit]; simp) hom
  · -- `p` is at one place of the main queue
    have hsame := hsplit.symm.trans hsplit'
    rw [hsplit] at hnodup
    obtain ⟨-, hcons, hdisj⟩ := List.nodup_append.mp hnodup
    have hpre : p ∉ pre := fun hp => hdisj p hp p List.mem_cons_self rfl
    have hpost : p ∉ x :: post := (List.nodup_cons.mp hcons).1
    have htail := ((List.append_cons_inj_of_notMem hpre hpost).mp hsame).2.2
    exact (List.cons.inj htail).1

/-- At most one node comes behind a node. -/
theorem Inv.linkedFrom_unique {z : T} (h : Inv s) (hx : LinkedFrom s z x)
    (hy : LinkedFrom s z y) : x = y := by
  -- a link that is still to be stored finds no link
  have hnone : ∀ u, s.pc u = .link z → s.next z = none := by
    intro u hu
    obtain ⟨o, ho⟩ := h.owner_of_main (h.linking_main hu)
    exact (h.pending ho hu).1
  rcases hx, hy with ⟨hx | hx, hy | hy⟩
  · exact Option.some.inj (hx.symm.trans hy)
  · rw [hnone y hy] at hx
    cases hx
  · rw [hnone x hx] at hy
    cases hy
  · exact h.pending_unique hx hy

theorem Inv.mainQueue (h : Inv s) (ho : s.owner = some o) : MainQueue s o s.main := by
  have hchain : s.main.IsChain (LinkedFrom s) := h.mainLinked.imp fun _ _ => Linked.linkedFrom
  refine
    { linked := fun hsucc => List.isChain_cons.mpr ⟨fun y hy => ?_, hchain⟩
      first := fun succ hsucc => ⟨((h.ownerOk o ho).first hsucc).1, hchain⟩
      tail := (h.tail o ho).1
      last := fun _ => h.last_unlinked ho }
  exact ((h.ownerOk o ho).rooted hsucc y hy).linkedFrom

theorem OwnerOk.headed (h : OwnerOk s o) : Headed s o s.sec := by
  unfold OwnerOk at h
  unfold Headed
  -- `spin` of the owner points to the head wherever it tells of the queue
  have hspin : s.spin o = secSpin s.sec → (s.spin o).pointer = s.sec.head? := by
    intro heq
    rw [heq, secSpin_pointer]
  cases hcase : s.pc o <;> rw [hcase] at h <;> simp only at h ⊢
  case setSpin =>
    rw [h.2.1, h.2.2]
    rfl
  case grantSec succ => exact h.2
  -- in the middle of a splice the part that is moved may be the whole queue
  case cut a b z =>
    rcases h.2.2.1 with hempty | ⟨y, -, -, heq⟩
    · exact Or.inr hempty
    · exact Or.inl (hspin heq)
  case passStore succ v => exact hspin h.2.2.1
  case setSecTail | passLoad | grantFlush => exact hspin h.2.1
  case spin | loadNext | testOne | awaitNext => exact hspin h.2.1
  all_goals exact hspin h.1.2.1

theorem OwnerOk.ended (h : OwnerOk s o) (hpc : ∀ last succ, s.pc o ≠ .setSecTail last succ) :
    SecTailOk s := by
  unfold OwnerOk at h
  cases hcase : s.pc o <;> rw [hcase] at h <;> simp only at h
  -- but for the moment at which the tail is out of date
  case setSecTail last succ => exact absurd hcase (hpc last succ)
  -- an empty queue has no tail to know
  case setSpin =>
    intro x hx
    rw [h.2.2] at hx
    cases hx
  case grantSec succ =>
    intro x hx
    rw [h.2] at hx
    cases hx
  case cut => exact h.2.2.2
  case passLoad => exact h.2.2.2
  case passStore => exact h.2.2.2.2
  case grantFlush => exact h.2.2.1
  case spin | loadNext | testOne | awaitNext => exact h.2.2.2
  all_goals exact h.1.2.2.2

theorem OwnerOk.closed (h : OwnerOk s o) (hpc : (s.pc o).splicing = false) : SecClosed s := by
  unfold OwnerOk at h
  cases hcase : s.pc o <;> rw [hcase] at h hpc <;> simp only at h
  case cut | grantFlush => cases hpc
  case setSpin =>
    intro x hx
    rw [h.2.2] at hx
    cases hx
  case grantSec succ =>
    intro x hx
    rw [h.2] at hx
    cases hx
  case setSecTail => exact h.2.2.1
  case passLoad => exact h.2.2.1
  case passStore => exact h.2.2.2.1
  case spin | loadNext | testOne | awaitNext => exact h.2.2.1
  all_goals exact h.1.2.2.1

theorem Inv.secondaryQueue (h : Inv s) (ho : s.owner = some o) : SecondaryQueue s o s.sec :=
  { linked := h.secLinked
    headed := (h.ownerOk o ho).headed
    ended := (h.ownerOk o ho).ended
    closed := (h.ownerOk o ho).closed }

/-- `CNALock` never loses or duplicates a waiter: one thread has the lock at a time, two
lists of nodes, the main and the secondary queue, are linked from its node and hold every
waiter once between them, and no node is linked from twice. A waiter never waits for
nobody, no call follows a null link, and a lock that nobody uses has no tail. -/
theorem cna_queues (h : Reachable step (init : State T) s) :
    (∀ t u, Granted s t → Granted s u → t = u) ∧
    (∀ o, Granted s o → ∃ main sec,
      MainQueue s o main ∧ SecondaryQueue s o sec ∧ Partition s main sec) ∧
    (∀ t, Waits s t → ∃ o, Granted s o) ∧
    (∀ x y z, LinkedFrom s z x → LinkedFrom s z y → x = y) ∧
    (∀ t, s.pc t ≠ .crashed) ∧
    ((∀ t, ¬ Uses s t) → s.tail = none) := by
  have hI := reachable_inv h
  refine ⟨fun t u ht hu => ?_, fun o ho => ?_, fun t hw => ?_,
    fun x y z hx hy => hI.linkedFrom_unique hx hy, fun t hcase => ?_, fun hfree => ?_⟩
  · have ho := hI.granted_iff.mp ht
    exact Option.some.inj (ho.symm.trans (hI.granted_iff.mp hu))
  · have ho := hI.granted_iff.mp ho
    exact ⟨s.main, s.sec, hI.mainQueue ho, hI.secondaryQueue ho, hI.nodup, fun t => hI.waits_iff⟩
  · cases ho : s.owner with
    | none =>
      obtain ⟨hmain, hsec, -⟩ := hI.free ho
      have hm := hI.waits_iff.mp hw
      rw [hmain, hsec] at hm
      exact absurd hm (by simp)
    | some o => exact ⟨o, hI.granted_iff.mpr ho⟩
  · have hmem := hI.not_member (t := t) (by simp [OwnerOk, hcase]) (by simp [hcase])
      (by simp [hcase])
    have hok := hI.outside t hmem
    simp only [OutsideOk, hcase] at hok
  · cases ho : s.owner with
    | none => exact (hI.free ho).2.2
    | some o =>
      -- the owner is using the lock
      have hg := hI.granted_iff.mpr ho
      refine absurd ?_ (hfree o)
      unfold Granted at hg
      unfold Uses
      cases hcase : s.pc o <;> rw [hcase] at hg <;> simp only at hg ⊢
      case idle => exact Or.inr hg
      all_goals exact Or.inl (by simp)

/-- Three threads meet, and the first moves the second to the secondary queue. -/
def splice : List (Action (Fin 3)) :=
  [.acquire 0, .advance 0 0 true, .advance 0 0 true, .advance 0 0 true, .advance 0 0 true,
    .acquire 1, .advance 1 0 true, .advance 1 0 true, .advance 1 0 true, .advance 1 1 true,
    .acquire 2, .advance 2 0 true, .advance 2 0 true, .advance 2 0 true, .advance 2 0 true,
    .release 0, .advance 0 0 true, .advance 0 0 true, .advance 0 0 true, .advance 0 0 true,
    .advance 0 0 true, .advance 0 0 true, .advance 0 0 true, .advance 0 0 true]

/-- Then the third moves the tail to the secondary queue, and the first comes
again. -/
def moveTail : List (Action (Fin 3)) :=
  splice ++ [.advance 0 0 true, .advance 0 0 true, .advance 2 0 true, .release 2,
    .advance 2 0 true, .advance 2 0 true, .advance 2 0 true, .advance 2 0 true,
    .acquire 0, .advance 0 0 true, .advance 0 0 true, .advance 0 0 true]

theorem cna_queues_moveTail :
    ∃ s : State (Fin 3), perform step (fun _ => True) init moveTail = some s ∧ Waits s 0 ∧
      ∃ main sec, MainQueue s 2 main ∧ SecondaryQueue s 2 sec ∧ Partition s main sec := by
  obtain ⟨s, hs, hpc⟩ := (Option.any_eq_true _ _).mp
    (show (perform step (fun _ => True) (init : State (Fin 3)) moveTail).any
      (fun s => decide (s.pc 2 = .grantSec 1 ∧ s.pc 0 = .link 1)) = true by decide)
  obtain ⟨h2, h0⟩ := of_decide_eq_true hpc
  have hgranted : Granted s 2 := by
    unfold Granted
    rw [h2]
    trivial
  exact ⟨s, hs, Or.inl ⟨1, h0⟩,
    (cna_queues ((ReachableWithin.start trivial).of_perform hs)).2.1 2 hgranted⟩

/-! ### Where the queues are taken apart -/

/-- The main queue hangs at the holder's node and the secondary queue at its
`spin`, whatever the holder is doing. -/
def QueuesAtHolder (s : State T) (o : T) : Prop :=
  ∃ main sec, (o :: main).IsChain (LinkedFrom s) ∧ (sec.IsChain fun x y => s.next x = some y) ∧
    (s.spin o).pointer = sec.head? ∧ Partition s main sec

/-- A waiter that neither list leads to. -/
theorem not_queuesAtHolder (hw : Waits s t)
    (hmain : ∀ main, (o :: main).IsChain (LinkedFrom s) → t ∉ main)
    (hsec : ∀ x, s.next x ≠ some t) (hspin : (s.spin o).pointer ≠ some t) :
    ¬ QueuesAtHolder s o := by
  rintro ⟨main, sec, hlinked, hchain, hhead, -, hwaits⟩
  rcases (hwaits t).mp hw with hm | hs
  · exact hmain main hlinked hm
  · cases hl : sec with
    | nil =>
      rw [hl] at hs
      exact absurd hs List.not_mem_nil
    | cons x rest =>
      rw [hl] at hs hchain hhead
      rcases List.mem_cons.mp hs with rfl | hs
      · exact hspin hhead
      · obtain ⟨y, hy⟩ := isChain_pred hchain hs
        exact hsec y hy

/-- Both exceptions are needed: after the store that cuts the prefix off, and after
the exchange of the tail, a waiter is in neither list. -/
theorem cna_queues_taken_apart :
    (∃ s : State (Fin 3), Reachable step init s ∧ Granted s 0 ∧ s.pc 0 = .passLoad 2 ∧
      ¬ QueuesAtHolder s 0) ∧
    ∃ s : State (Fin 3), Reachable step init s ∧ Granted s 2 ∧ s.pc 2 = .grantSec 1 ∧
      ¬ QueuesAtHolder s 2 := by
  constructor
  · obtain ⟨s, hs, hfacts⟩ := (Option.any_eq_true _ _).mp
      (show (perform step (fun _ => True) (init : State (Fin 3)) splice).any
        (fun s => decide (s.pc 0 = .passLoad 2 ∧ s.pc 2 = .spin ∧ s.spin 2 = .zero ∧
          s.spin 0 = .node 1 ∧ ∀ x, s.next x ≠ some 2)) = true by decide)
    obtain ⟨h0, h2, hzero, hspin, hnext⟩ := of_decide_eq_true hfacts
    have hgranted : Granted s 0 := by
      unfold Granted
      rw [h0]
      trivial
    refine ⟨s, (ReachableWithin.start trivial).of_perform hs, hgranted, h0, ?_⟩
    refine not_queuesAtHolder (t := 2) (Or.inr ⟨h2, hzero⟩) (fun main hmain h2m => ?_) hnext ?_
    · -- nobody is linked to the third thread's node
      obtain ⟨x, hx | hx⟩ := isChain_pred hmain h2m
      · exact hnext x hx
      · rw [h2] at hx
        cases hx
    · rw [hspin]
      decide
  · obtain ⟨s, hs, hfacts⟩ := (Option.any_eq_true _ _).mp
      (show (perform step (fun _ => True) (init : State (Fin 3)) moveTail).any
        (fun s => decide (s.pc 2 = .grantSec 1 ∧ s.pc 0 = .link 1 ∧ s.spin 2 = .node 1 ∧
          s.next 2 = none ∧ (∀ x, s.pc x ≠ .link 2) ∧ ∀ x, s.next x ≠ some 0)) = true by decide)
    obtain ⟨h2, h0, hspin, hnone, hpc, hnext⟩ := of_decide_eq_true hfacts
    have hgranted : Granted s 2 := by
      unfold Granted
      rw [h2]
      trivial
    refine ⟨s, (ReachableWithin.start trivial).of_perform hs, hgranted, h2, ?_⟩
    refine not_queuesAtHolder (t := 0) (Or.inl ⟨1, h0⟩) (fun main hmain h0m => ?_) hnext ?_
    · -- nothing is behind the holder's node
      cases main with
      | nil => exact absurd h0m List.not_mem_nil
      | cons y rest =>
        rcases (List.isChain_cons_cons.mp hmain).1 with hy | hy
        · rw [hnone] at hy
          cases hy
        · exact hpc y hy
    · rw [hspin]
      decide

end LockShield.Cna
