import LockShield.Lib.Lts
import LockShield.Lib.Chain
import Mathlib.Logic.Function.Basic
import Mathlib.Tactic.Set

/-!
# `CNALock`

Every thread has its own `cna_node`. A waiter's `spin` is 0; the holder's is 1 or
the address of the first node of the secondary queue, whose `secTail` is the last
one. `Release` may move a prefix of the main queue to the secondary queue
(`find_successor`), give the lock to the main queue, or put the secondary queue in
front of it.

`current_numa_node` and `keep_lock_local` are answered by the environment, at each
call anew. Each access of an atomic is one step; `socket` and `secTail`, which are
not atomic, are accessed together with the step next to them.

The ghost lists `main` and `sec` say which threads are in which queue. A thread
moves from one to the other where the code cuts the prefix off, and the whole of
`sec` becomes `main` where the tail is moved or the head is granted.

## Results

* `OwnerOk` — what the owner's next access tells about the two queues: one case for each
  access of `Release`.
* `Inv.outsideStep`, `Inv.ownerStep` — a step of a thread outside the queues, or of the
  owner, keeps the invariant if it keeps the queues.
* `Inv.pending`, `Inv.walk_next` — whose link is missing, and where a walk goes on.
-/

set_option linter.unusedSectionVars false

namespace LockShield.Cna

open Lib

/-- The values of `spin`: 0, 1, and the addresses. -/
inductive Spin (T : Type) where
  | zero
  | one
  | node (t : T)
  deriving DecidableEq

/-- The next access of a thread; its node is `me`. Between calls it is `idle`. In
`find_successor`, `head` and `last` are `secHead` and `secTail`. -/
inductive Pc (T : Type) where
  | idle
  /-- `me->next.store(nullptr)` and `me->socket = -1` -/
  | clearNext
  /-- `me->spin.store(0)` -/
  | clearSpin
  /-- `tail.exchange(me)` -/
  | swapTail
  /-- `me->spin.store(1)` -/
  | setSpin
  /-- `me->socket = current_numa_node()` and `tail_node->next.store(me)` -/
  | link (tailNode : T)
  /-- `while (!me->spin.load())` -/
  | spin
  /-- `!me->next.load()` of `Release` -/
  | loadNext
  /-- `me->spin.load() == 1` -/
  | testOne
  /-- `tail.compare_exchange_strong(me, nullptr)` -/
  | casNull
  /-- `secHead = me->spin.load()` -/
  | loadSec
  /-- `tail.compare_exchange_strong(me, secHead->secTail)` -/
  | casSec (secHead : T)
  /-- `secHead->spin.store(1)` -/
  | grantSec (secHead : T)
  /-- `while (me->next.load() == nullptr)` -/
  | awaitNext
  /-- `keep_lock_local()` -/
  | keepLocal
  /-- `next = me->next.load()` of `find_successor`, and the test of `next->socket` -/
  | findNext
  /-- `cur = last->next.load()`, and the test of `cur->socket` -/
  | walk (head last : T) (mySocket : Int)
  /-- `me->spin.load() > 1` -/
  | testSplice (head last cur : T)
  /-- `me->spin.load()` in front of `->secTail` -/
  | loadSplice (head last cur : T)
  /-- `...->secTail->next.store(secHead)` -/
  | appendSplice (head last cur x : T)
  /-- `me->spin.store(secHead)` -/
  | storeSplice (head last cur : T)
  /-- `secTail->next.store(nullptr)` -/
  | cut (head last cur : T)
  /-- `((cna_node*)me->spin.load())->secTail = secTail` -/
  | setSecTail (last cur : T)
  /-- `me->spin.load()` to pass it on -/
  | passLoad (succ : T)
  /-- `succ->spin.store(...)` -/
  | passStore (succ : T) (v : Spin T)
  /-- `me->spin.load() > 1` after `find_successor` -/
  | testSec
  /-- `succ = me->spin.load()` -/
  | loadSucc
  /-- `me->next.load()` to put it behind the secondary queue -/
  | loadMain (succ : T)
  /-- `succ->secTail->next.store(...)` -/
  | flush (succ : T) (n : Option T)
  /-- `succ->spin.store(1)` -/
  | grantFlush (succ : T)
  /-- `me->next.load()` of the last line -/
  | loadPlain
  /-- `...->spin.store(1)` -/
  | grantPlain (n : T)
  /-- an access through `nullptr`, or through 0 or 1 -/
  | crashed
  deriving DecidableEq

variable (T : Type)

structure State where
  tail : Option T
  spin : T → Spin T
  socket : T → Int
  secTail : T → Option T
  next : T → Option T
  pc : T → Pc T
  /-- the thread is between its `Acquire` and its `Release` -/
  holding : T → Bool
  /-- history: who was granted the lock last and has not passed it on, and who
  waits for it in which queue -/
  owner : Option T
  main : List T
  sec : List T

variable {T}

inductive Action (T : Type) where
  | acquire (t : T)
  | release (t : T)
  /-- `numa` and `keep` answer `current_numa_node()` and `keep_lock_local()` -/
  | advance (t : T) (numa : Nat) (keep : Bool)

variable [DecidableEq T]

def init : State T where
  tail := none
  spin _ := .zero
  socket _ := -1
  secTail _ := none
  next _ := none
  pc _ := .idle
  holding _ := false
  owner := none
  main := []
  sec := []

def State.goto (s : State T) (t : T) (pc : Pc T) : State T :=
  { s with pc := Function.update s.pc t pc }

/-- The last store of `Release` lets `succ` in. -/
def State.grant (s : State T) (t succ : T) (v : Spin T) (main sec : List T) : State T :=
  { s with
    spin := Function.update s.spin succ v
    owner := some succ
    main
    sec }.goto t .idle

/-- The next access of a call, and what follows it. -/
def proceed (s : State T) (t : T) (numa : Nat) (keep : Bool) : Pc T → Option (State T)
  | .idle => none
  | .clearNext =>
    some ({ s with
      next := Function.update s.next t none
      socket := Function.update s.socket t (-1) }.goto t .clearSpin)
  | .clearSpin => some ({ s with spin := Function.update s.spin t .zero }.goto t .swapTail)
  | .swapTail =>
    match s.tail with
    -- the queue was empty: the thread has the lock before it stores its `spin`
    | none => some ({ s with tail := some t, owner := some t }.goto t .setSpin)
    | some tailNode =>
      some ({ s with tail := some t, main := s.main ++ [t] }.goto t (.link tailNode))
  | .setSpin =>
    some ({ s with
      spin := Function.update s.spin t .one
      holding := Function.update s.holding t true }.goto t .idle)
  | .link tailNode =>
    some ({ s with
      socket := Function.update s.socket t numa
      next := Function.update s.next tailNode (some t) }.goto t .spin)
  | .spin =>
    if s.spin t = .zero then some s
    else some ({ s with holding := Function.update s.holding t true }.goto t .idle)
  | .loadNext => if s.next t = none then some (s.goto t .testOne) else some (s.goto t .keepLocal)
  | .testOne => if s.spin t = .one then some (s.goto t .casNull) else some (s.goto t .loadSec)
  | .casNull =>
    if s.tail = some t then some ({ s with tail := none, owner := none }.goto t .idle)
    else some (s.goto t .awaitNext)
  | .loadSec =>
    match s.spin t with
    | .node secHead => some (s.goto t (.casSec secHead))
    | .zero | .one => some (s.goto t .crashed)
  | .casSec secHead =>
    if s.tail = some t then
      some ({ s with tail := s.secTail secHead, main := s.sec, sec := [] }.goto t
        (.grantSec secHead))
    else some (s.goto t .awaitNext)
  | .grantSec secHead => some (s.grant t secHead .one s.main.tail s.sec)
  | .awaitNext => if s.next t = none then some s else some (s.goto t .keepLocal)
  | .keepLocal => if keep then some (s.goto t .findNext) else some (s.goto t .testSec)
  | .findNext =>
    match s.next t with
    | none => some (s.goto t .crashed)
    | some next =>
      -- a node that never queued behind another has no socket yet
      let mySocket := if s.socket t = -1 then (numa : Int) else s.socket t
      if s.socket next = mySocket then some (s.goto t (.passLoad next))
      else some (s.goto t (.walk next next mySocket))
  | .walk head last mySocket =>
    match s.next last with
    -- `find_successor` returns `nullptr`
    | none => some (s.goto t .testSec)
    | some cur =>
      if s.socket cur = mySocket then some (s.goto t (.testSplice head last cur))
      else some (s.goto t (.walk head cur mySocket))
  | .testSplice head last cur =>
    match s.spin t with
    | .node _ => some (s.goto t (.loadSplice head last cur))
    -- the prefix `head .. last` is the first that is put aside
    | .zero | .one => some (s.goto t (.storeSplice head last cur))
  | .loadSplice head last cur =>
    match s.spin t with
    | .node x => some (s.goto t (.appendSplice head last cur x))
    | .zero | .one => some (s.goto t .crashed)
  | .appendSplice head last cur x =>
    match s.secTail x with
    | none => some (s.goto t .crashed)
    | some y =>
      some ({ s with next := Function.update s.next y (some head) }.goto t (.cut head last cur))
  | .storeSplice head last cur =>
    some ({ s with spin := Function.update s.spin t (.node head) }.goto t (.cut head last cur))
  | .cut _ last cur =>
    some ({ s with
      next := Function.update s.next last none
      -- `cur` and what follows it stay; the nodes before it change queues
      main := s.main.dropWhile (· ≠ cur)
      sec := s.sec ++ s.main.takeWhile (· ≠ cur) }.goto t (.setSecTail last cur))
  | .setSecTail last cur =>
    match s.spin t with
    | .node x =>
      some ({ s with secTail := Function.update s.secTail x (some last) }.goto t (.passLoad cur))
    | .zero | .one => some (s.goto t .crashed)
  | .passLoad succ => some (s.goto t (.passStore succ (s.spin t)))
  | .passStore succ v => some (s.grant t succ v s.main.tail s.sec)
  | .testSec =>
    match s.spin t with
    | .node _ => some (s.goto t .loadSucc)
    | .zero | .one => some (s.goto t .loadPlain)
  | .loadSucc =>
    match s.spin t with
    | .node succ => some (s.goto t (.loadMain succ))
    | .zero | .one => some (s.goto t .crashed)
  | .loadMain succ => some (s.goto t (.flush succ (s.next t)))
  | .flush succ n =>
    match s.secTail succ with
    | none => some (s.goto t .crashed)
    | some y => some ({ s with next := Function.update s.next y n }.goto t (.grantFlush succ))
  | .grantFlush succ => some (s.grant t succ .one (s.sec ++ s.main).tail [])
  | .loadPlain =>
    match s.next t with
    | none => some (s.goto t .crashed)
    | some n => some (s.goto t (.grantPlain n))
  | .grantPlain n => some (s.grant t n .one s.main.tail s.sec)
  | .crashed => none

/-- One step of one thread. Every thread acquires and releases in turn. -/
def step (s : State T) : Action T → Option (State T)
  | .acquire t =>
    if s.pc t = .idle ∧ s.holding t = false then some (s.goto t .clearNext) else none
  | .release t =>
    if s.pc t = .idle ∧ s.holding t = true then
      some ({ s with holding := Function.update s.holding t false }.goto t .loadNext)
    else none
  | .advance t numa keep => proceed s t numa keep (s.pc t)

/-! ## The invariant -/

/-- `y` comes right after `x`: by a link that is stored, or by one that `y` has
still to store. -/
def Linked (s : State T) (x y : T) : Prop :=
  match s.pc y with
  | .link p => p = x ∧ s.next x = none
  | _ => s.next x = some y

/-- What the holder's `spin` says about the secondary queue. -/
def secSpin : List T → Spin T
  | [] => .one
  | x :: _ => .node x

def SecClosed (s : State T) : Prop := ∀ x, s.sec.getLast? = some x → s.next x = none

def SecTailOk (s : State T) : Prop := ∀ x, s.sec.head? = some x → s.secTail x = s.sec.getLast?

/-- The main queue hangs at the holder's node. -/
def Rooted (s : State T) (o : T) : Prop := ∀ y, s.main.head? = some y → Linked s o y

/-- Both queues are in order. -/
def Settled (s : State T) (o : T) : Prop :=
  Rooted s o ∧ s.spin o = secSpin s.sec ∧ SecClosed s ∧ SecTailOk s

/-- The main queue starts with linked nodes, from `head` to `last`, then `rest`. -/
def Walked (s : State T) (head last : T) (rest : List T) : Prop :=
  ∃ pre, s.main = pre ++ rest ∧ pre.head? = some head ∧ pre.getLast? = some last ∧
    ∀ y ∈ pre, s.pc y = .spin

/-- `find_successor` has found `cur` behind the prefix from `head` to `last`. -/
def Found (s : State T) (head last cur : T) : Prop :=
  s.pc cur = .spin ∧ ∃ rest, Walked s head last (cur :: rest)

/-- The prefix is linked behind the secondary queue, or is its beginning. -/
def Spliced (s : State T) (o head : T) : Prop :=
  (s.sec = [] ∧ s.spin o = .node head) ∨
  ∃ y, s.sec.getLast? = some y ∧ s.next y = some head ∧ s.spin o = secSpin s.sec

/-- `succ` is first in the main queue and waits for its `spin`. -/
def First (s : State T) (succ : T) : Prop := s.main.head? = some succ ∧ s.pc succ = .spin

/-- What the owner's next access tells about the queues. -/
def OwnerOk (s : State T) (o : T) : Prop :=
  match s.pc o with
  | .setSpin => Rooted s o ∧ s.spin o = .zero ∧ s.sec = []
  | .idle => Settled s o ∧ s.holding o = true
  | .spin | .loadNext | .testOne | .awaitNext => Settled s o
  | .casNull => Settled s o ∧ s.sec = []
  | .loadSec => Settled s o ∧ s.sec ≠ []
  | .casSec x => Settled s o ∧ s.sec.head? = some x
  | .grantSec x => First s x ∧ s.sec = []
  | .keepLocal | .findNext | .testSec => Settled s o ∧ s.next o ≠ none
  | .walk head last _ => Settled s o ∧ s.next o ≠ none ∧ ∃ rest, Walked s head last rest
  | .testSplice head last cur => Settled s o ∧ Found s head last cur
  | .loadSplice head last cur => Settled s o ∧ Found s head last cur ∧ s.sec ≠ []
  | .appendSplice head last cur x =>
    Settled s o ∧ Found s head last cur ∧ s.sec.head? = some x
  | .storeSplice head last cur => Settled s o ∧ Found s head last cur ∧ s.sec = []
  | .cut head last cur => Rooted s o ∧ Found s head last cur ∧ Spliced s o head ∧ SecTailOk s
  | .setSecTail last cur =>
    First s cur ∧ s.spin o = secSpin s.sec ∧ SecClosed s ∧ s.sec.getLast? = some last
  | .passLoad succ => First s succ ∧ s.spin o = secSpin s.sec ∧ SecClosed s ∧ SecTailOk s
  | .passStore succ v =>
    First s succ ∧ v = secSpin s.sec ∧ s.spin o = secSpin s.sec ∧ SecClosed s ∧ SecTailOk s
  | .loadSucc => Settled s o ∧ s.next o ≠ none ∧ s.sec ≠ []
  | .loadMain x => Settled s o ∧ s.next o ≠ none ∧ s.sec.head? = some x
  | .flush x n => Settled s o ∧ s.sec.head? = some x ∧ s.next o = n ∧ n ≠ none
  | .grantFlush x => Rooted s o ∧ s.spin o = secSpin s.sec ∧ SecTailOk s ∧
    s.sec.head? = some x ∧ ∃ y n, s.sec.getLast? = some y ∧ s.next y = some n ∧ First s n
  | .loadPlain => Settled s o ∧ s.next o ≠ none ∧ s.sec = []
  | .grantPlain n => Settled s o ∧ s.next o = some n ∧ s.sec = []
  | .clearNext | .clearSpin | .swapTail | .link _ | .crashed => False

/-- The successor that `Release` has settled on, after it has taken the queues
apart. -/
def Pc.successor : Pc T → Option T
  | .grantSec succ | .setSecTail _ succ | .passLoad succ | .passStore succ _ => some succ
  | _ => none

def Member (s : State T) (t : T) : Prop := s.owner = some t ∨ t ∈ s.main ∨ t ∈ s.sec

/-- What the next access of a thread outside the queues tells about it. -/
def OutsideOk (s : State T) (t : T) : Prop :=
  match s.pc t with
  | .idle => s.holding t = false
  | .clearNext => True
  | .clearSpin => s.next t = none
  | .swapTail => s.next t = none ∧ s.spin t = .zero
  | _ => False

structure Inv (s : State T) : Prop where
  busy : ∀ t, s.holding t = true → s.pc t = .idle
  outside : ∀ t, ¬ Member s t → OutsideOk s t
  inMain : ∀ t ∈ s.main, s.spin t = .zero ∧ (s.pc t = .spin ∨ ∃ p, s.pc t = .link p)
  inSec : ∀ t ∈ s.sec, s.spin t = .zero ∧ s.pc t = .spin
  /-- nobody is in two places -/
  nodup : (s.main ++ s.sec).Nodup
  apart : ∀ o, s.owner = some o → o ∉ s.main ∧ o ∉ s.sec
  free : s.owner = none → s.main = [] ∧ s.sec = [] ∧ s.tail = none
  tail : ∀ o, s.owner = some o →
    s.tail = some (s.main.getLastD o) ∧ s.next (s.main.getLastD o) = none
  mainLinked : s.main.IsChain (Linked s)
  secLinked : s.sec.IsChain fun x y => s.next x = some y
  ownerOk : ∀ o, s.owner = some o → OwnerOk s o

variable {s s' : State T} {t u o x y c head last : T} {rest : List T}

theorem inv_init : Inv (init : State T) :=
  { busy := fun _ h => by cases h
    outside := fun _ _ => rfl
    inMain := fun _ h => absurd h List.not_mem_nil
    inSec := fun _ h => absurd h List.not_mem_nil
    nodup := List.nodup_nil
    apart := fun _ h => by cases h
    free := fun _ => ⟨rfl, rfl, rfl⟩
    tail := fun _ h => by cases h
    mainLinked := .nil
    secLinked := .nil
    ownerOk := fun _ h => by cases h }

/-! ### What stays true while others move -/

theorem linked_congr (hpc : s'.pc y = s.pc y) (hnext : s'.next x = s.next x) :
    Linked s' x y ↔ Linked s x y := by
  unfold Linked
  rw [hpc, hnext]

theorem Rooted.congr (h : Rooted s o) (hmain : s'.main = s.main) (hnext : s'.next o = s.next o)
    (hpc : ∀ z ∈ s.main, s'.pc z = s.pc z) : Rooted s' o := by
  intro y hy
  rw [hmain] at hy
  rw [linked_congr (hpc y (List.mem_of_mem_head? hy)) hnext]
  exact h y hy

/-- The links of the main queue stay while its nodes are left alone. -/
theorem main_congr (h : s.main.IsChain (Linked s)) (hmain : s'.main = s.main)
    (hnext : ∀ z ∈ s.main, s'.next z = s.next z) (hpc : ∀ z ∈ s.main, s'.pc z = s.pc z) :
    s'.main.IsChain (Linked s') := by
  rw [hmain]
  exact h.imp_of_mem_imp fun a b ha hb hab => (linked_congr (hpc b hb) (hnext a ha)).mpr hab

theorem Settled.congr (h : Settled s o) (hmain : s'.main = s.main) (hsec : s'.sec = s.sec)
    (hspin : s'.spin o = s.spin o) (hnext : ∀ z, z = o ∨ z ∈ s.sec → s'.next z = s.next z)
    (htail : ∀ z ∈ s.sec, s'.secTail z = s.secTail z) (hpc : ∀ z ∈ s.main, s'.pc z = s.pc z) :
    Settled s' o := by
  obtain ⟨hroot, hspin', hclosed, hsecTail⟩ := h
  refine ⟨hroot.congr hmain (hnext o (Or.inl rfl)) hpc, ?_, fun z hz => ?_, fun z hz => ?_⟩
  · rw [hspin, hsec]
    exact hspin'
  · rw [hsec] at hz
    rw [hnext z (Or.inr (List.mem_of_mem_getLast? hz))]
    exact hclosed z hz
  · rw [hsec] at hz ⊢
    rw [htail z (List.mem_of_mem_head? hz)]
    exact hsecTail z hz

theorem Walked.mem (h : Walked s head last rest) : ∀ z ∈ rest, z ∈ s.main := by
  obtain ⟨pre, hmain, -, -, -⟩ := h
  intro z hz
  rw [hmain]
  exact List.mem_append_right pre hz

theorem Walked.congr (h : Walked s head last rest) (hmain : s.main <+: s'.main)
    (hpc : ∀ z ∈ s.main, s.pc z = .spin → s'.pc z = .spin) :
    ∃ ext, Walked s' head last (rest ++ ext) := by
  obtain ⟨pre, hsplit, hhead, hlast, hspin⟩ := h
  obtain ⟨ext, hext⟩ := hmain
  -- the prefix is kept, and newcomers lengthen the rest
  refine ⟨ext, pre, ?_, hhead, hlast, fun z hz => hpc z ?_ (hspin z hz)⟩
  · rw [← hext, hsplit, List.append_assoc]
  · rw [hsplit]
    exact List.mem_append_left rest hz

theorem Found.congr (h : Found s head last c) (hmain : s.main <+: s'.main)
    (hpc : ∀ z ∈ s.main, s.pc z = .spin → s'.pc z = .spin) : Found s' head last c := by
  obtain ⟨hc, rest, hw⟩ := h
  obtain ⟨ext, hw'⟩ := hw.congr hmain hpc
  exact ⟨hpc c (hw.mem c List.mem_cons_self) hc, rest ++ ext, hw'⟩

theorem First.congr (h : First s c) (hmain : s.main <+: s'.main)
    (hpc : ∀ z ∈ s.main, s.pc z = .spin → s'.pc z = .spin) : First s' c := by
  obtain ⟨ext, hext⟩ := hmain
  refine ⟨?_, hpc c (List.mem_of_mem_head? h.1) h.2⟩
  rw [← hext, List.head?_append, h.1]
  rfl

/-- What the owner's next access tells stays true while others arrive, link their
nodes or move outside the queues. -/
theorem OwnerOk.frame (h : OwnerOk s o) (hpc : s'.pc o = s.pc o)
    (hhold : s'.holding o = s.holding o) (hspin : s'.spin o = s.spin o) (hsec : s'.sec = s.sec)
    (hsecTail : ∀ z ∈ s.sec, s'.secTail z = s.secTail z)
    (hnext : ∀ z ∈ s.sec, s'.next z = s.next z)
    (hnexto : ∀ n, s.next o = some n → s'.next o = some n) (hmain : s.main <+: s'.main)
    (hpcs : ∀ z ∈ s.main, s.pc z = .spin → s'.pc z = .spin)
    (hroot : Rooted s o → Rooted s' o) : OwnerOk s' o := by
  have hclosed : SecClosed s → SecClosed s' := by
    intro hc z hz
    rw [hsec] at hz
    rw [hnext z (List.mem_of_mem_getLast? hz)]
    exact hc z hz
  have htail : SecTailOk s → SecTailOk s' := by
    intro ht z hz
    rw [hsec] at hz ⊢
    rw [hsecTail z (List.mem_of_mem_head? hz)]
    exact ht z hz
  have hsettled : Settled s o → Settled s' o := fun ⟨h1, h2, h3, h4⟩ =>
    ⟨hroot h1, by rw [hspin, hsec]; exact h2, hclosed h3, htail h4⟩
  -- a link that the owner has found stays
  have hne : s.next o ≠ none → s'.next o ≠ none := by
    intro hn
    obtain ⟨n, hn⟩ := Option.ne_none_iff_exists'.mp hn
    rw [hnexto n hn]
    simp
  have hfirst : ∀ z, First s z → First s' z := fun z hz => hz.congr hmain hpcs
  have hfound : ∀ a b z, Found s a b z → Found s' a b z := fun a b z hz => hz.congr hmain hpcs
  unfold OwnerOk at h ⊢
  rw [hpc]
  cases hcase : s.pc o <;> rw [hcase] at h <;> simp only [hsec, hspin, hhold] at h ⊢
  case idle => exact ⟨hsettled h.1, h.2⟩
  case setSpin => exact ⟨hroot h.1, h.2⟩
  case spin | loadNext | testOne | awaitNext => exact hsettled h
  case casNull | loadSec => exact ⟨hsettled h.1, h.2⟩
  case casSec z => exact ⟨hsettled h.1, h.2⟩
  case grantSec z => exact ⟨hfirst z h.1, h.2⟩
  case keepLocal | findNext | testSec => exact ⟨hsettled h.1, hne h.2⟩
  case walk a b k =>
    obtain ⟨h1, h2, rest, hw⟩ := h
    obtain ⟨ext, hw'⟩ := hw.congr hmain hpcs
    exact ⟨hsettled h1, hne h2, rest ++ ext, hw'⟩
  case testSplice a b z => exact ⟨hsettled h.1, hfound a b z h.2⟩
  case loadSplice a b z | storeSplice a b z => exact ⟨hsettled h.1, hfound a b z h.2.1, h.2.2⟩
  case appendSplice a b z w => exact ⟨hsettled h.1, hfound a b z h.2.1, h.2.2⟩
  case cut a b z =>
    refine ⟨hroot h.1, hfound a b z h.2.1, ?_, htail h.2.2.2⟩
    rcases h.2.2.1 with ⟨h1, h2⟩ | ⟨w, hw, hlink, h2⟩
    · exact Or.inl ⟨hsec.trans h1, hspin.trans h2⟩
    · refine Or.inr ⟨w, by rw [hsec]; exact hw, ?_, by rw [hspin, hsec]; exact h2⟩
      rw [hnext w (List.mem_of_mem_getLast? hw)]
      exact hlink
  case setSecTail b z => exact ⟨hfirst z h.1, h.2.1, hclosed h.2.2.1, h.2.2.2⟩
  case passLoad z => exact ⟨hfirst z h.1, h.2.1, hclosed h.2.2.1, htail h.2.2.2⟩
  case passStore z v =>
    exact ⟨hfirst z h.1, h.2.1, h.2.2.1, hclosed h.2.2.2.1, htail h.2.2.2.2⟩
  case loadSucc | loadPlain => exact ⟨hsettled h.1, hne h.2.1, h.2.2⟩
  case loadMain z => exact ⟨hsettled h.1, hne h.2.1, h.2.2⟩
  case flush z n =>
    obtain ⟨h1, h2, h3, h4⟩ := h
    obtain ⟨m, rfl⟩ := Option.ne_none_iff_exists'.mp h4
    exact ⟨hsettled h1, h2, hnexto m h3, h4⟩
  case grantFlush z =>
    obtain ⟨h1, h2, h3, h4, w, n, hw, hlink, hn⟩ := h
    refine ⟨hroot h1, h2, htail h3, h4, w, n, hw, ?_, hfirst n hn⟩
    rw [hnext w (List.mem_of_mem_getLast? hw)]
    exact hlink
  case grantPlain n => exact ⟨hsettled h.1, hnexto n h.2.1, h.2.2⟩

/-- A step of a thread outside the queues that stays outside. -/
theorem Inv.outsideStep (h : Inv s) (hout : ¬ Member s t) (howner : s'.owner = s.owner)
    (hmain : s'.main = s.main) (hsec : s'.sec = s.sec) (htail : s'.tail = s.tail)
    (hsecTail : s'.secTail = s.secTail)
    (hothers : ∀ u, u ≠ t → s'.pc u = s.pc u ∧ s'.spin u = s.spin u ∧
      s'.holding u = s.holding u ∧ s'.next u = s.next u)
    (hbusy : s'.holding t = true → s'.pc t = .idle) (hok : OutsideOk s' t) : Inv s' := by
  have hmember : ∀ u, Member s' u ↔ Member s u := by
    intro u
    rw [Member, Member, howner, hmain, hsec]
  have hne : ∀ u, Member s u → u ≠ t := fun u hu hut => hout (hut ▸ hu)
  have hm : ∀ u ∈ s.main, u ≠ t := fun u hu => hne u (Or.inr (Or.inl hu))
  have hs : ∀ u ∈ s.sec, u ≠ t := fun u hu => hne u (Or.inr (Or.inr hu))
  have howne : ∀ o, s.owner = some o → o ≠ t := fun o ho => hne o (Or.inl ho)
  refine
    { busy := fun u hu => ?_
      outside := fun u hu => ?_
      inMain := fun u hu => ?_
      inSec := fun u hu => ?_
      nodup := by rw [hmain, hsec]; exact h.nodup
      apart := by rw [howner, hmain, hsec]; exact h.apart
      free := by rw [howner, hmain, hsec, htail]; exact h.free
      tail := fun o ho => ?_
      mainLinked := ?_
      secLinked := ?_
      ownerOk := fun o ho => ?_ }
  · by_cases hut : u = t
    · rw [hut] at hu ⊢
      exact hbusy hu
    · obtain ⟨h1, -, h3, -⟩ := hothers u hut
      rw [h3] at hu
      rw [h1]
      exact h.busy u hu
  · rw [hmember] at hu
    by_cases hut : u = t
    · rw [hut]
      exact hok
    · obtain ⟨h1, h2, h3, h4⟩ := hothers u hut
      have := h.outside u hu
      unfold OutsideOk at this ⊢
      rw [h1, h2, h3, h4]
      exact this
  · rw [hmain] at hu
    obtain ⟨h1, h2, -, -⟩ := hothers u (hm u hu)
    rw [h1, h2]
    exact h.inMain u hu
  · rw [hsec] at hu
    obtain ⟨h1, h2, -, -⟩ := hothers u (hs u hu)
    rw [h1, h2]
    exact h.inSec u hu
  · rw [howner] at ho
    rw [htail, hmain]
    -- the last of the main queue is a member, or the owner
    have hlast : s.main.getLastD o ≠ t := by
      rcases List.mem_cons.mp (List.getLastD_mem_cons (l := s.main) (a := o)) with heq | hmem
      · rw [heq]
        exact howne o ho
      · exact hm _ hmem
    rw [(hothers _ hlast).2.2.2]
    exact h.tail o ho
  · exact main_congr h.mainLinked hmain (fun z hz => (hothers z (hm z hz)).2.2.2)
      fun z hz => (hothers z (hm z hz)).1
  · rw [hsec]
    refine h.secLinked.imp_of_mem_imp fun a b ha _ hab => ?_
    rwa [(hothers a (hs a ha)).2.2.2]
  · rw [howner] at ho
    obtain ⟨h1, h2, h3, h4⟩ := hothers o (howne o ho)
    refine (h.ownerOk o ho).frame h1 h3 h2 hsec (fun _ _ => by rw [hsecTail])
      (fun z hz => (hothers z (hs z hz)).2.2.2) (fun n hn => by rw [h4, hn])
      ⟨[], by simp [hmain]⟩ (fun z hz hsp => by rw [(hothers z (hm z hz)).1, hsp]) fun hroot => ?_
    exact hroot.congr hmain h4 fun z hz => (hothers z (hm z hz)).1

/-- A step of the owner that keeps it the owner. -/
theorem Inv.ownerStep (h : Inv s) (ho : s.owner = some o) (howner : s'.owner = some o)
    (hmem : ∀ z, (z ∈ s'.main ∨ z ∈ s'.sec) ↔ (z ∈ s.main ∨ z ∈ s.sec))
    (hnodup : (s'.main ++ s'.sec).Nodup)
    (hlinking : ∀ z p, s.pc z = .link p → z ∈ s.main → z ∈ s'.main)
    (hothers : ∀ u, u ≠ o → s'.pc u = s.pc u ∧ s'.spin u = s.spin u ∧
      s'.holding u = s.holding u)
    (hnext : ∀ u, ¬ Member s u → s'.next u = s.next u)
    (hbusy : s'.holding o = true → s'.pc o = .idle)
    (htail : s'.tail = some (s'.main.getLastD o) ∧ s'.next (s'.main.getLastD o) = none)
    (hmain : s'.main.IsChain (Linked s')) (hsec : s'.sec.IsChain fun x y => s'.next x = some y)
    (hok : OwnerOk s' o) : Inv s' := by
  obtain ⟨hom, hos⟩ := h.apart o ho
  have hone : ∀ o', s'.owner = some o' → o' = o := by
    intro o' ho'
    rw [howner] at ho'
    exact (Option.some.inj ho').symm
  have hmember : ∀ u, Member s' u ↔ Member s u := by
    intro u
    rw [Member, Member, howner, ho, hmem u]
  have hne : ∀ u, u ∈ s.main ∨ u ∈ s.sec → u ≠ o := by
    rintro u hu rfl
    exact hu.elim hom hos
  -- who waits for its link is in the main queue, before and after
  have hwait : ∀ u, u ∈ s.main ∨ u ∈ s.sec →
      s.spin u = .zero ∧ (s.pc u = .spin ∨ ∃ p, s.pc u = .link p) := by
    rintro u (hu | hu)
    · exact h.inMain u hu
    · exact ⟨(h.inSec u hu).1, Or.inl (h.inSec u hu).2⟩
  refine
    { busy := fun u hu => ?_
      outside := fun u hu => ?_
      inMain := fun u hu => ?_
      inSec := fun u hu => ?_
      nodup := hnodup
      apart := fun o' ho' => ?_
      free := fun hnone => by rw [howner] at hnone; cases hnone
      tail := fun o' ho' => by rw [hone o' ho']; exact htail
      mainLinked := hmain
      secLinked := hsec
      ownerOk := fun o' ho' => by rw [hone o' ho']; exact hok }
  · by_cases huo : u = o
    · rw [huo] at hu ⊢
      exact hbusy hu
    · obtain ⟨h1, -, h3⟩ := hothers u huo
      rw [h3] at hu
      rw [h1]
      exact h.busy u hu
  · rw [hmember] at hu
    have huo : u ≠ o := fun huo => hu (Or.inl (by rw [ho, huo]))
    obtain ⟨h1, h2, h3⟩ := hothers u huo
    have := h.outside u hu
    unfold OutsideOk at this ⊢
    rw [h1, h2, h3, hnext u hu]
    exact this
  · have hold := (hmem u).mp (Or.inl hu)
    obtain ⟨h1, h2, -⟩ := hothers u (hne u hold)
    rw [h1, h2]
    exact hwait u hold
  · have hold := (hmem u).mp (Or.inr hu)
    obtain ⟨h1, h2, -⟩ := hothers u (hne u hold)
    obtain ⟨hz, hpc⟩ := hwait u hold
    rw [h1, h2]
    refine ⟨hz, hpc.resolve_right ?_⟩
    rintro ⟨p, hp⟩
    -- who has a link to store was not moved to the secondary queue
    rcases hold with hm | hs
    · exact (List.nodup_append.mp hnodup).2.2 u (hlinking u p hp hm) u hu rfl
    · rw [(h.inSec u hs).2] at hp
      cases hp
  · rw [hone o' ho']
    constructor
    · intro hm
      exact hne o ((hmem o).mp (Or.inl hm)) rfl
    · intro hs
      exact hne o ((hmem o).mp (Or.inr hs)) rfl

/-- A step of the owner that changes nothing but its own position. -/
theorem Inv.move (h : Inv s) (ho : s.owner = some o)
    (hsame : s'.owner = s.owner ∧ s'.main = s.main ∧ s'.sec = s.sec ∧ s'.tail = s.tail ∧
      s'.next = s.next ∧ s'.spin = s.spin)
    (hothers : ∀ u, u ≠ o → s'.pc u = s.pc u ∧ s'.holding u = s.holding u)
    (hbusy : s'.holding o = true → s'.pc o = .idle) (hok : OwnerOk s' o) : Inv s' := by
  obtain ⟨howner, hmain, hsec, htail, hnext, hspin⟩ := hsame
  obtain ⟨hom, -⟩ := h.apart o ho
  refine h.ownerStep ho (by rw [howner, ho]) (fun z => by rw [hmain, hsec])
    (by rw [hmain, hsec]; exact h.nodup) (fun z _ _ hz => by rw [hmain]; exact hz)
    (fun u hu => ⟨(hothers u hu).1, by rw [hspin], (hothers u hu).2⟩)
    (fun _ _ => by rw [hnext]) hbusy (by rw [hmain, htail, hnext]; exact h.tail o ho) ?_ ?_ hok
  · exact main_congr h.mainLinked hmain (fun _ _ => by rw [hnext])
      fun z hz => (hothers z fun hzo => hom (hzo ▸ hz)).1
  · rw [hsec, hnext]
    exact h.secLinked

/-! ### Who is where -/

/-- Only with the queues taken apart does the main queue not hang at the holder's
node. -/
theorem OwnerOk.rooted (h : OwnerOk s o) (hsucc : (s.pc o).successor = none) : Rooted s o := by
  unfold OwnerOk at h
  cases hcase : s.pc o <;> rw [hcase] at h hsucc <;> simp only at h
  case setSpin | cut | grantFlush => exact h.1
  case spin | loadNext | testOne | awaitNext => exact h.1
  case grantSec | setSecTail | passLoad | passStore => cases hsucc
  all_goals exact h.1.1

/-- Then it begins with the successor. -/
theorem OwnerOk.first (h : OwnerOk s o) (hsucc : (s.pc o).successor = some c) : First s c := by
  unfold OwnerOk at h
  cases hcase : s.pc o <;> rw [hcase] at h hsucc <;> simp only at h
  case grantSec | setSecTail | passLoad | passStore =>
    rw [← Option.some.inj hsucc]
    exact h.1
  all_goals cases hsucc

theorem Inv.not_holding {pc : Pc T} (h : Inv s) (hcase : s.pc t = pc) (hbusy : pc ≠ .idle) :
    s.holding t = false := by
  cases hh : s.holding t with
  | false => rfl
  | true => exact absurd (hcase.symm.trans (h.busy t hh)) hbusy

/-- Who is neither outside nor in a queue owns the lock. -/
theorem Inv.owner_of_inside (h : Inv s) (hout : ¬ OutsideOk s t) (hmain : t ∉ s.main)
    (hsec : t ∉ s.sec) : s.owner = some t := by
  by_contra ho
  refine hout (h.outside t ?_)
  rintro (ho' | hm | hs)
  · exact ho ho'
  · exact hmain hm
  · exact hsec hs

/-- Who is neither waiting nor the owner is in no queue. -/
theorem Inv.not_member (h : Inv s) (hown : ¬ OwnerOk s t) (hspin : s.pc t ≠ .spin)
    (hlink : ∀ p, s.pc t ≠ .link p) : ¬ Member s t := by
  rintro (ho | hm | hs)
  · exact hown (h.ownerOk t ho)
  · rcases (h.inMain t hm).2 with hpc | ⟨p, hp⟩
    · exact hspin hpc
    · exact hlink p hp
  · exact hspin (h.inSec t hs).2

/-- A thread with a link to store is in the main queue. -/
theorem Inv.linking_main {p : T} (h : Inv s) (hcase : s.pc t = .link p) : t ∈ s.main := by
  by_contra hm
  have ho := h.owner_of_inside (by simp [OutsideOk, hcase]) hm fun hs => by
    have := (h.inSec t hs).2
    rw [hcase] at this
    cases this
  have := h.ownerOk t ho
  simp only [OwnerOk, hcase] at this

theorem Inv.owner_of_main (h : Inv s) (hm : t ∈ s.main) : ∃ o, s.owner = some o := by
  cases ho : s.owner with
  | none =>
    rw [(h.free ho).1] at hm
    exact absurd hm List.not_mem_nil
  | some o => exact ⟨o, rfl⟩

/-- The link that a thread has still to store is to the node right in front of
it. -/
theorem Inv.pending {p : T} (h : Inv s) (ho : s.owner = some o) (hcase : s.pc t = .link p) :
    s.next p = none ∧ ((p = o ∧ s.main.head? = some t) ∨
      ∃ pre post, s.main = pre ++ p :: t :: post) := by
  have hlinked : ∀ z, Linked s z t → p = z ∧ s.next z = none := by
    intro z hz
    unfold Linked at hz
    rw [hcase] at hz
    exact hz
  obtain ⟨pre, post, hsplit⟩ := List.append_of_mem (h.linking_main hcase)
  rcases List.eq_nil_or_concat pre with rfl | ⟨pre', q, rfl⟩
  · -- the head of the main queue hangs at the owner's node
    have hhead : s.main.head? = some t := by rw [hsplit]; rfl
    cases hsucc : (s.pc o).successor with
    | none =>
      obtain ⟨rfl, hnone⟩ := hlinked o ((h.ownerOk o ho).rooted hsucc t hhead)
      exact ⟨hnone, Or.inl ⟨rfl, hhead⟩⟩
    | some c =>
      have hfirst := (h.ownerOk o ho).first hsucc
      have hct := hfirst.1.symm.trans hhead
      have hpc := hfirst.2
      rw [Option.some.inj hct, hcase] at hpc
      cases hpc
  · -- elsewhere it hangs at the node in front of it
    have hsplit' : s.main = pre' ++ q :: t :: post := by simpa using hsplit
    have hchain := h.mainLinked
    rw [hsplit'] at hchain
    obtain ⟨rfl, hnone⟩ := hlinked q (List.isChain_append_cons_cons.mp hchain).2.1
    exact ⟨hnone, Or.inr ⟨pre', post, hsplit'⟩⟩

/-- Nobody has a link to store behind the last of the main queue. -/
theorem Inv.pending_not_last {p : T} (h : Inv s) (ho : s.owner = some o)
    (hcase : s.pc t = .link p) : s.main.getLastD o ≠ p := by
  rcases (h.pending ho hcase).2 with ⟨rfl, -⟩ | ⟨pre, post, hsplit⟩
  · have hne : s.main ≠ [] := List.ne_nil_of_mem (h.linking_main hcase)
    intro heq
    refine (h.apart p ho).1 ?_
    nth_rewrite 1 [← heq]
    rw [List.getLastD_eq_getLast?, List.getLast?_eq_some_getLast hne]
    exact List.getLast_mem hne
  · -- `t` comes after `p`
    have hnodup := (List.nodup_append.mp h.nodup).1
    rw [hsplit] at hnodup
    have hpn : p ∉ t :: post := (List.nodup_cons.mp (List.nodup_append.mp hnodup).2.1).1
    intro heq
    refine hpn ?_
    rw [← heq, List.getLastD_eq_getLast?, hsplit, List.getLast?_append, List.getLast?_cons_cons,
      List.getLast?_eq_some_getLast (List.cons_ne_nil t post)]
    exact List.getLast_mem (List.cons_ne_nil t post)

/-- What the owner finds in its `next` is first in the main queue. -/
theorem Inv.next_first {n : T} (h : Inv s) (ho : s.owner = some o) (hroot : Rooted s o)
    (hn : s.next o = some n) : First s n := by
  cases hmain : s.main with
  | nil =>
    have hend := (h.tail o ho).2
    rw [hmain] at hend
    rw [show ([] : List T).getLastD o = o from rfl, hn] at hend
    cases hend
  | cons z rest =>
    -- the link is stored, so the first node is past `link`
    have hz := hroot z (by rw [hmain]; rfl)
    have hpc := (h.inMain z (by rw [hmain]; exact List.mem_cons_self)).2
    unfold Linked at hz
    rcases hpc with hpc | ⟨p, hp⟩
    · rw [hpc] at hz
      obtain rfl := Option.some.inj (hn.symm.trans hz)
      exact ⟨by rw [hmain]; rfl, hpc⟩
    · rw [hp] at hz
      rw [hz.2] at hn
      cases hn

/-- What `find_successor` finds behind the prefix is the next of the main queue. -/
theorem Inv.walk_next {n : T} (h : Inv s) (ho : s.owner = some o)
    (hw : Walked s head last rest) (hn : s.next last = some n) :
    s.pc n = .spin ∧ ∃ rest', rest = n :: rest' := by
  obtain ⟨pre, hmain, -, hlast, -⟩ := hw
  cases hrest : rest with
  | nil =>
    -- `last` would be the last of the main queue
    have hend := (h.tail o ho).2
    rw [hrest, List.append_nil] at hmain
    rw [List.getLastD_eq_getLast?, hmain, hlast, Option.getD_some, hn] at hend
    cases hend
  | cons z rest' =>
    have hchain := h.mainLinked
    rw [hmain, hrest] at hchain
    -- `last` and `z` are neighbours in the main queue
    have hz := (List.isChain_append.mp hchain).2.2 last hlast z rfl
    have hzm : z ∈ s.main := by rw [hmain, hrest]; simp
    unfold Linked at hz
    rcases (h.inMain z hzm).2 with hpc | ⟨p, hp⟩
    · rw [hpc] at hz
      obtain rfl := Option.some.inj (hn.symm.trans hz)
      exact ⟨hpc, rest', rfl⟩
    · rw [hp] at hz
      rw [hz.2] at hn
      cases hn

theorem secSpin_one {l : List T} : secSpin l = .one ↔ l = [] := by
  cases l <;> simp [secSpin]

theorem secSpin_node {l : List T} : secSpin l = .node x ↔ l.head? = some x := by
  cases l <;> simp [secSpin]

theorem secSpin_ne_zero {l : List T} : secSpin l ≠ .zero := by
  cases l <;> simp [secSpin]

end LockShield.Cna
