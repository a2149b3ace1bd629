import LockShield.Lock.Mutexes

/-!
# `CNALock` lets its users through

Whatever the environment answers, the accesses of `Release` come to an end: every
turn of the loop in `find_successor` goes one node further in the main queue. The
holder waits in one loop only, for a link behind its node, and who has to store that
link does not wait.

## Results

* `owner_moves`   — an access of the owner that is not a wait comes nearer to the end of the
  call, or ends it.
* `exists_linking` — when the owner waits, somebody is about to store the link.
* `exists_lower`  — so some access lowers the measure.
* `works`         — `CNALock` is a mutex that works.
-/

set_option linter.unusedSectionVars false

namespace LockShield.Cna

open Lib

variable {T : Type} [Fintype T] [DecidableEq T] {s s' : State T} {t o : T} {numa : Nat}
  {keep : Bool}

/-- The accesses to the end of a call, but for its waits and the loop of
`find_successor`. -/
def fuel : Pc T → Nat
  | .idle | .crashed => 0
  | .clearNext => 5
  | .clearSpin => 4
  | .swapTail => 3
  | .link _ => 2
  | .setSpin | .spin => 1
  | .loadNext => 15
  | .testOne => 14
  | .loadSec => 13
  | .casNull | .casSec _ => 12
  | .awaitNext => 11
  | .keepLocal => 10
  | .findNext => 9
  | .walk _ _ _ => 8
  | .testSplice _ _ _ => 7
  | .loadSplice _ _ _ => 6
  | .appendSplice _ _ _ _ | .storeSplice _ _ _ => 5
  | .cut _ _ _ => 4
  | .setSecTail _ _ => 3
  | .passLoad _ => 2
  | .passStore _ _ => 1
  | .testSec => 5
  | .loadSucc => 4
  | .loadMain _ => 3
  | .flush _ _ => 2
  | .grantFlush _ => 1
  | .loadPlain => 2
  | .grantPlain _ => 1
  | .grantSec _ => 1

/-- The turns of that loop: it has looked at the main queue up to `last`. -/
def ahead (s : State T) : Pc T → Nat
  | .loadNext | .testOne | .loadSec | .casNull | .casSec _ | .awaitNext | .keepLocal | .findNext =>
    s.main.length
  | .walk _ last _ => (s.main.dropWhile (· ≠ last)).length
  | _ => 0

/-- The owner waits for a link behind its node. -/
def Stuck (s : State T) (o : T) : Prop := s.pc o = .awaitNext ∧ s.next o = none

/-- What is left of the main queue from `x` on. -/
theorem dropWhile_ne {x : T} {pre post : List T} (hnodup : (pre ++ x :: post).Nodup) :
    (pre ++ x :: post).dropWhile (· ≠ x) = x :: post := by
  have hne : ∀ z ∈ pre, decide (z ≠ x) = true := by
    intro z hz
    simpa using (List.nodup_append.mp hnodup).2.2 z hz x List.mem_cons_self
  rw [List.dropWhile_append_of_pos hne]
  simp

/-- One turn of the loop: `cur` is right behind `last`. -/
theorem ahead_walk {head last cur : T} (h : Inv s) (ho : s.owner = some o)
    (hw : ∃ rest, Walked s head last rest) (hn : s.next last = some cur) :
    (s.main.dropWhile (· ≠ cur)).length < (s.main.dropWhile (· ≠ last)).length := by
  obtain ⟨rest, hw⟩ := hw
  obtain ⟨-, rest', rfl⟩ := h.walk_next ho hw hn
  obtain ⟨pre, hmain, -, hlast, -⟩ := hw
  obtain ⟨pre, rfl⟩ := List.getLast?_eq_some_iff.mp hlast
  have hnodup := (List.nodup_append.mp h.nodup).1
  rw [hmain] at hnodup ⊢
  rw [dropWhile_ne hnodup]
  rw [List.append_assoc, List.singleton_append] at hnodup ⊢
  rw [dropWhile_ne hnodup]
  exact Nat.lt_succ_self _

/-- The access of the owner at `pc` ends its call or brings it nearer to its end. -/
def Nearer (s : State T) (o : T) (pc : Pc T) (after : Option (State T)) : Prop :=
  ∃ s' c, after = some s' ∧ s'.pc = Function.update s.pc o c ∧
    (phaseOf c = .out ∨ s'.owner = some o ∧ fuel c + ahead s' c < fuel pc + ahead s pc)

/-- The end of the call. -/
theorem Nearer.out {pc c : Pc T} (hpc : s'.pc = Function.update s.pc o c)
    (hout : phaseOf c = .out) : Nearer s o pc (some s') := ⟨s', c, rfl, hpc, Or.inl hout⟩

/-- Behind the loop. -/
theorem Nearer.past {pc c : Pc T} (hpc : s'.pc = Function.update s.pc o c)
    (ho : s'.owner = some o) (hpast : ahead s' c = 0) (hlt : fuel c < fuel pc) :
    Nearer s o pc (some s') := ⟨s', c, rfl, hpc, Or.inr ⟨ho, by omega⟩⟩

/-- In the loop and before it, where the queues stay as they are. -/
theorem Nearer.goto {pc c : Pc T} (ho : s.owner = some o)
    (hlt : fuel c + ahead s c < fuel pc + ahead s pc) : Nearer s o pc (some (s.goto o c)) := by
  refine ⟨s.goto o c, c, rfl, rfl, Or.inr ⟨ho, ?_⟩⟩
  have hsame : ahead (s.goto o c) c = ahead s c := by cases c <;> rfl
  rw [hsame]
  exact hlt

variable (numa keep) in
/-- Each access of the owner that is not its wait. In the walk along the main queue it is the
queue that gets shorter. -/
theorem owner_moves (h : Inv s) (ho : s.owner = some o) (hin : phaseOf (s.pc o) ≠ .out)
    (hgo : ¬ Stuck s o) : Nearer s o (s.pc o) (proceed s o numa keep (s.pc o)) := by
  have hok := h.ownerOk o ho
  cases hpc : s.pc o with
  | idle | crashed => simp [hpc, phaseOf] at hin
  | clearNext | clearSpin | swapTail | link p => simp [OwnerOk, hpc] at hok
  | setSpin => exact .out (c := .idle) rfl rfl
  | spin =>
    simp only [OwnerOk, hpc] at hok
    have hspin : s.spin o ≠ .zero := by
      rw [hok.2.1]
      exact secSpin_ne_zero
    -- the owner has been let in: its word says so
    simp only [proceed, hspin, if_false]
    exact .out (c := .idle) rfl rfl
  | loadNext =>
    simp only [proceed]
    split
    · exact .goto ho (by simp [fuel, ahead])
    · exact .goto ho (by simp [fuel, ahead])
  | testOne =>
    simp only [proceed]
    split
    · exact .goto ho (by simp [fuel, ahead])
    · exact .goto ho (by simp [fuel, ahead])
  | casNull =>
    simp only [proceed]
    split
    · exact .out (c := .idle) rfl rfl
    · exact .goto ho (by simp [fuel, ahead])
  | loadSec =>
    simp only [proceed]
    split
    · exact .goto ho (by simp [fuel, ahead])
    · exact .out (c := .crashed) rfl rfl
    · exact .out (c := .crashed) rfl rfl
  | casSec x =>
    simp only [proceed]
    split
    · exact .past (c := .grantSec x) rfl ho rfl (by simp [fuel])
    · exact .goto ho (by simp [fuel, ahead])
  | grantSec x => exact .out (c := .idle) rfl rfl
  | awaitNext =>
    have hnext : s.next o ≠ none := fun hnone => hgo ⟨hpc, hnone⟩
    simp only [proceed, hnext, if_false]
    exact .goto ho (by simp [fuel, ahead])
  | keepLocal =>
    simp only [proceed]
    split
    · exact .goto ho (by simp [fuel, ahead])
    · exact .goto ho (by simp only [fuel, ahead]; omega)
  | findNext =>
    simp only [proceed]
    generalize (if s.socket o = -1 then (numa : Int) else s.socket o) = mySocket
    split
    · exact .out (c := .crashed) rfl rfl
    · split
      · exact .goto ho (by simp only [fuel, ahead]; omega)
      · rename_i n _ _
        -- the loop begins behind the first node
        have hle : (s.main.dropWhile (· ≠ n)).length ≤ s.main.length :=
          (List.dropWhile_sublist _).length_le
        exact .goto ho (by simp only [fuel, ahead]; omega)
  | walk head last k =>
    simp only [OwnerOk, hpc] at hok
    simp only [proceed]
    split
    · exact .goto ho (by simp only [fuel, ahead]; omega)
    · rename_i cur hcur
      split
      · exact .goto ho (by simp only [fuel, ahead]; omega)
      · -- another turn, one node further
        have hturn := ahead_walk h ho hok.2.2 hcur
        exact .goto ho (by simp only [fuel, ahead]; omega)
  | testSplice head last cur =>
    simp only [proceed]
    split
    · exact .goto ho (by simp [fuel, ahead])
    · exact .goto ho (by simp [fuel, ahead])
    · exact .goto ho (by simp [fuel, ahead])
  | loadSplice head last cur =>
    simp only [proceed]
    split
    · exact .goto ho (by simp [fuel, ahead])
    · exact .out (c := .crashed) rfl rfl
    · exact .out (c := .crashed) rfl rfl
  | appendSplice head last cur x =>
    simp only [proceed]
    split
    · exact .out (c := .crashed) rfl rfl
    · exact .past (c := .cut head last cur) rfl ho rfl (by simp [fuel])
  | storeSplice head last cur =>
    exact .past (c := .cut head last cur) rfl ho rfl (by simp [fuel])
  | cut head last cur => exact .past (c := .setSecTail last cur) rfl ho rfl (by simp [fuel])
  | setSecTail last cur =>
    simp only [proceed]
    split
    · exact .past (c := .passLoad cur) rfl ho rfl (by simp [fuel])
    · exact .out (c := .crashed) rfl rfl
    · exact .out (c := .crashed) rfl rfl
  | passLoad succ => exact .goto ho (by simp [fuel, ahead])
  | passStore succ v => exact .out (c := .idle) rfl rfl
  | testSec =>
    simp only [proceed]
    split
    · exact .goto ho (by simp [fuel, ahead])
    · exact .goto ho (by simp [fuel, ahead])
    · exact .goto ho (by simp [fuel, ahead])
  | loadSucc =>
    simp only [proceed]
    split
    · exact .goto ho (by simp [fuel, ahead])
    · exact .out (c := .crashed) rfl rfl
    · exact .out (c := .crashed) rfl rfl
  | loadMain succ => exact .goto ho (by simp [fuel, ahead])
  | flush succ n =>
    simp only [proceed]
    split
    · exact .out (c := .crashed) rfl rfl
    · exact .past (c := .grantFlush succ) rfl ho rfl (by simp [fuel])
  | grantFlush succ => exact .out (c := .idle) rfl rfl
  | loadPlain =>
    simp only [proceed]
    split
    · exact .out (c := .crashed) rfl rfl
    · exact .goto ho (by simp [fuel, ahead])
  | grantPlain n => exact .out (c := .idle) rfl rfl

/-! ### The wait -/

/-- Who waits for a link behind its node is not the tail. -/
def Followed (s : State T) : Prop := ∀ t, s.pc t = .awaitNext → s.tail ≠ some t

/-- A step that leaves `Tail` alone. -/
theorem Followed.goto {c : Pc T} (h : Followed s) (hpc : s'.pc = Function.update s.pc t c)
    (htail : s'.tail = s.tail) (hc : c = .awaitNext → s.tail ≠ some t) : Followed s' := by
  intro u hu
  rw [htail]
  rw [hpc] at hu
  by_cases hut : u = t
  · subst hut
    rw [Function.update_self] at hu
    exact hc hu
  · rw [Function.update_of_ne hut] at hu
    exact h u hu

/-- While a thread that does not wait is the owner, nobody waits for a link. -/
theorem Inv.no_awaiting {u : T} (h : Inv s) (ho : s.owner ≠ some u) : s.pc u ≠ .awaitNext := by
  intro hpc
  exact ho (h.owner_of_release (by simp [hpc]) (by simp [hpc]) (by simp [hpc]) (by simp [hpc])
    (by simp [hpc]) (by simp [hpc]))

/-- One access. The owner waits once its compare-and-swap has found another tail than itself, and
no other thread puts it back there. -/
theorem Followed.proceed (h : Followed s) (hI : Inv s)
    (hs : Cna.proceed s t numa keep (s.pc t) = some s') : Followed s' := by
  cases hpc : s.pc t with
  | idle | crashed => simp [hpc, Cna.proceed] at hs
  | swapTail =>
    simp only [hpc, Cna.proceed] at hs
    -- the new tail is at its exchange
    have hown : ∀ {c : Pc T}, c ≠ .awaitNext → s'.pc = Function.update s.pc t c →
        s'.tail = some t → Followed s' := by
      intro c hc hpc' htail u hu
      rw [htail]
      rintro ⟨rfl⟩
      rw [hpc', Function.update_self] at hu
      exact hc hu
    split at hs
    · obtain rfl := Option.some.inj hs
      exact hown (c := .setSpin) (by simp) rfl rfl
    · rename_i tailNode _
      obtain rfl := Option.some.inj hs
      exact hown (c := .link tailNode) (by simp) rfl rfl
  | casNull =>
    simp only [hpc, Cna.proceed] at hs
    split at hs
    · obtain rfl := Option.some.inj hs
      intro u _ htail
      cases htail
    · rename_i hne
      obtain rfl := Option.some.inj hs
      exact h.goto (c := .awaitNext) rfl rfl fun _ => hne
  | casSec x =>
    simp only [hpc, Cna.proceed] at hs
    split at hs
    · obtain rfl := Option.some.inj hs
      -- one thread at a time is in `Release`
      intro u hu _
      have hut : u ≠ t := by
        rintro rfl
        simp [State.goto] at hu
      have ho : s.owner = some t := by apply hI.owner_of_release <;> simp [hpc]
      refine hI.no_awaiting (u := u) ?_ (by simpa [State.goto, hut] using hu)
      rw [ho]
      exact fun heq => hut (Option.some.inj heq).symm
    · rename_i hne
      obtain rfl := Option.some.inj hs
      exact h.goto (c := .awaitNext) rfl rfl fun _ => hne
  | awaitNext =>
    simp only [hpc, Cna.proceed] at hs
    split at hs
    · obtain rfl := Option.some.inj hs
      exact h
    · obtain rfl := Option.some.inj hs
      exact h.goto (c := .keepLocal) rfl rfl (by simp)
  | clearNext | clearSpin | setSpin | link | grantSec | storeSplice | cut | passLoad | passStore
    | loadMain | grantFlush | grantPlain =>
    simp only [hpc, Cna.proceed] at hs
    obtain rfl := Option.some.inj hs
    exact h.goto rfl rfl (by simp)
  | spin =>
    simp only [hpc, Cna.proceed] at hs
    split at hs
    · obtain rfl := Option.some.inj hs
      exact h
    · obtain rfl := Option.some.inj hs
      exact h.goto (c := .idle) rfl rfl (by simp)
  | loadNext | testOne | keepLocal =>
    simp only [hpc, Cna.proceed] at hs
    split at hs
    · obtain rfl := Option.some.inj hs
      exact h.goto rfl rfl (by simp)
    · obtain rfl := Option.some.inj hs
      exact h.goto rfl rfl (by simp)
  | appendSplice | flush | loadPlain =>
    simp only [hpc, Cna.proceed] at hs
    split at hs
    · obtain rfl := Option.some.inj hs
      exact h.goto (c := .crashed) rfl rfl (by simp)
    · obtain rfl := Option.some.inj hs
      exact h.goto rfl rfl (by simp)
  | loadSec | testSplice | loadSplice | setSecTail | testSec | loadSucc =>
    simp only [hpc, Cna.proceed] at hs
    split at hs
    · obtain rfl := Option.some.inj hs
      exact h.goto rfl rfl (by simp)
    · obtain rfl := Option.some.inj hs
      exact h.goto rfl rfl (by simp)
    · obtain rfl := Option.some.inj hs
      exact h.goto rfl rfl (by simp)
  | findNext =>
    simp only [hpc, Cna.proceed] at hs
    generalize (if s.socket t = -1 then (numa : Int) else s.socket t) = mySocket at hs
    split at hs
    · obtain rfl := Option.some.inj hs
      exact h.goto (c := .crashed) rfl rfl (by simp)
    · split at hs
      · obtain rfl := Option.some.inj hs
        exact h.goto rfl rfl (by simp)
      · obtain rfl := Option.some.inj hs
        exact h.goto rfl rfl (by simp)
  | walk =>
    simp only [hpc, Cna.proceed] at hs
    split at hs
    · obtain rfl := Option.some.inj hs
      exact h.goto (c := .testSec) rfl rfl (by simp)
    · split at hs
      · obtain rfl := Option.some.inj hs
        exact h.goto rfl rfl (by simp)
      · obtain rfl := Option.some.inj hs
        exact h.goto rfl rfl (by simp)

/-- In every run, who waits for a link has a thread behind it. -/
theorem followed (h : Reachable step (init : State T) s) : Followed s := by
  induction h with
  | start _ =>
    intro t ht
    cases ht
  | @step _ _ a hr hs _ ih =>
    cases a with
    | acquire t =>
      obtain ⟨-, hs⟩ := Option.ite_none_right_eq_some.mp hs
      obtain rfl := Option.some.inj hs
      exact ih.goto (c := .clearNext) rfl rfl (by simp)
    | release t =>
      obtain ⟨-, hs⟩ := Option.ite_none_right_eq_some.mp hs
      obtain rfl := Option.some.inj hs
      exact ih.goto (c := .loadNext) rfl rfl (by simp)
    | advance t numa keep => exact ih.proceed (reachable_inv hr) hs

/-- Whoever waits for a link, a thread that is about to store it comes next. -/
theorem exists_linking (h : Inv s) (hf : Followed s) (ho : s.owner = some o) (hstuck : Stuck s o) :
    ∃ y p, s.pc y = .link p ∧ y ≠ o := by
  have hne : s.main ≠ [] := by
    intro hnil
    -- with an empty main queue the owner is the tail
    refine hf o hstuck.1 ?_
    rw [(h.tail o ho).1, hnil]
    rfl
  obtain ⟨y, rest, hmain⟩ := List.exists_cons_of_ne_nil hne
  have hy : y ∈ s.main := by rw [hmain]; exact List.mem_cons_self
  have hok := h.ownerOk o ho
  simp only [OwnerOk, hstuck.1] at hok
  have hlinked := hok.1 y (by rw [hmain]; rfl)
  rcases (h.inMain y hy).2 with hpc | ⟨p, hpc⟩
  · -- a first node that is linked is the link that the owner waits for
    simp only [Linked, hpc, hstuck.2] at hlinked
    cases hlinked
  · exact ⟨y, p, hpc, fun hyo => (h.apart o ho).1 (hyo ▸ hy)⟩

/-! ### The measure -/

/-- What the owner may have in front of it in the loop. -/
def loop (s : State T) : Nat := s.owner.elim 0 fun o => ahead s (s.pc o)

/-- The accesses that the threads inside calls have in front of them. -/
def remaining (s : State T) : Nat := ∑ t, fuel (s.pc t) + loop s

/-- One thread moves, and the loop of the owner is counted once. -/
theorem remaining_lt {c : Pc T} (hpc : s'.pc = Function.update s.pc t c)
    (hlt : fuel c + loop s' < fuel (s.pc t) + loop s) : remaining s' < remaining s := by
  have hsum := sum_update (t := t) (d := fuel) (f := s.pc) (c := c)
  rw [← hpc] at hsum
  unfold remaining
  omega

/-- Without an owner nobody is in the loop. -/
theorem loop_none (ho : s.owner = none) : loop s = 0 := by
  rw [loop, ho]
  rfl

/-- The owner's part of the measure. -/
theorem loop_some (ho : s.owner = some o) : loop s = ahead s (s.pc o) := by
  rw [loop, ho]
  rfl

variable (numa keep) in
/-- Some access lowers the measure, or ends a call, whatever the environment answers. -/
theorem exists_lower (h : Inv s) (hf : Followed s) (hfree : ∀ u, s.holding u ≠ true)
    (hin : phaseOf (s.pc t) ≠ .out) : ∃ u s', phaseOf (s.pc u) ≠ .out ∧
      proceed s u numa keep (s.pc u) = some s' ∧
        (phaseOf (s'.pc u) = .out ∨ remaining s' < remaining s) := by
  cases ho : s.owner with
  | none =>
    -- whoever is inside a call has not reached the queue
    obtain ⟨hmain, hsec, htail⟩ := h.free ho
    have hout := h.outside t (by simp [Member, ho, hmain, hsec])
    -- outside the queue a thread only prepares its node
    refine ⟨t, ?_⟩
    cases hpc : s.pc t with
    | idle | crashed => simp [hpc, phaseOf] at hin
    | clearNext =>
      refine ⟨_, by simp [phaseOf], rfl, Or.inr (remaining_lt (c := .clearSpin) rfl ?_)⟩
      rw [loop_none ho, hpc, loop_none]
      · simp [fuel]
      · exact ho
    | clearSpin =>
      refine ⟨_, by simp [phaseOf], rfl, Or.inr (remaining_lt (c := .swapTail) rfl ?_)⟩
      rw [loop_none ho, hpc, loop_none]
      · simp [fuel]
      · exact ho
    | swapTail =>
      simp only [proceed, htail]
      refine ⟨_, by simp [phaseOf], rfl, Or.inr (remaining_lt (c := .setSpin) rfl ?_)⟩
      rw [loop_some (o := t) rfl, loop_none ho, hpc]
      simp [fuel, ahead, State.goto]
    | _ => simp [OutsideOk, hpc] at hout
  | some o =>
    by_cases hstuck : Stuck s o
    · obtain ⟨y, p, hpc, hyo⟩ := exists_linking h hf ho hstuck
      refine ⟨y, _, by simp [hpc, phaseOf], by rw [hpc]; rfl,
        Or.inr (remaining_lt (t := y) (c := .spin) rfl ?_)⟩
      rw [loop_some ho, hpc, loop_some (o := o)]
      · simp [fuel, ahead, State.goto, hyo.symm, hstuck.1]
      · exact ho
    · have hpc : phaseOf (s.pc o) ≠ .out := by
        -- the owner does not hold the lock, so it is inside a call
        have hok := h.ownerOk o ho
        intro hout
        cases hcase : s.pc o with
        | idle =>
          simp only [OwnerOk, hcase] at hok
          exact hfree o hok.2
        | crashed => simp [OwnerOk, hcase] at hok
        | _ => simp [hcase, phaseOf] at hout
      obtain ⟨s', c, hs, hpc', hend⟩ := owner_moves numa keep h ho hpc hstuck
      refine ⟨o, s', hpc, hs, ?_⟩
      have hc : s'.pc o = c := by rw [hpc', Function.update_self]
      rw [hc]
      rcases hend with hout | ⟨ho', hlt⟩
      · exact Or.inl hout
      · refine Or.inr (remaining_lt hpc' ?_)
        rw [loop_some ho, loop_some ho', hc]
        exact hlt

/-- A thread outside the calls can start one: by the invariant it has not crashed. -/
theorem idle_of_out (h : Inv s) (hout : phaseOf (s.pc t) = .out) : s.pc t = .idle := by
  have hok := h.not_crashed t
  cases hpc : s.pc t with
  | idle => rfl
  | crashed => exact absurd hpc hok
  | _ => simp [hpc, phaseOf] at hout

/-- `CNALock` works for any number of threads and acquisitions, whatever NUMA nodes and random
answers the threads meet. -/
def works (n : Nat) : (mutex T).Works n where
  inv := Reachable step init
  limited := (mutex T).unlimited _
  correct := mutex_correct.mono fun _ _ => trivial
  progress :=
    { acquire := fun s t _ hI _ hout hfree => ⟨.acquire t, _, rfl,
        if_pos ⟨idle_of_out (reachable_inv hI) hout, Bool.eq_false_iff.mpr (hfree ())⟩⟩
      release := fun s t _ hI _ hout hin => ⟨.release t, _, rfl,
        if_pos ⟨idle_of_out (reachable_inv hI) hout, hin⟩⟩
      returns := fun s hI hn _ => Mutex.returns_of_measure ((mutex T).unlimited _)
        (mutex_correct.mono fun _ _ => trivial) remaining
        (fun s hI hfree ⟨t, ht⟩ => by
          obtain ⟨u, s', hin, hs, hend⟩ := exists_lower 0 false (reachable_inv hI)
            (followed hI) (fun u => hfree u ()) ht
          exact ⟨.advance u 0 false, u, s', rfl, hin, hs, hend⟩) s hI hn }

end LockShield.Cna
