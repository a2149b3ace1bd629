import LockShield.Lock.Abql

/-!
# The indices of `ABQLLock`

`tail` is a signed counter, and `%` keeps the sign: `INT_MIN` is a multiple of 256
and still names slot 0, the ticket after it is slot -255. Neither the number of
threads nor their order matters, so the invariant here (`Counted`) is about the
counter alone.

## Results

* `counted_step`       — what the counter and the slots are after any number of draws.
* `abql_indices_iff`   — exactly the first `2 ^ 31 + 1` tickets of a lock stay within `flags`
  and go round it slot by slot.
* `abql_negative_index` — the draw after that leaves the array.
-/

set_option linter.unusedSectionVars false

namespace LockShield.Abql

open Lib

variable {L T : Type} [DecidableEq L] [DecidableEq T] {s s' : State L T} {t u : T} {l : L} {i : Int}
  {mayAcquire : List L → L → Bool}

/-- Indices are within bounds and consecutive tickets have consecutive slots. -/
structure Indexed (s : State L T) : Prop where
  accessed : ∀ t i, accessed s t = some i → 0 ≤ i ∧ i < maxThreads
  noFault : ∀ t, s.pc t ≠ .outOfBounds
  consecutive : ∀ (l : L) (k : Nat) (i j : Int), (s.drawn l)[k]? = some i →
    (s.drawn l)[k + 1]? = some j → j = (i + 1) % maxThreads

/-- Where the slots come from. -/
structure Counted (s : State L T) : Prop where
  tail : ∀ l, s.tail l = int32 (s.queue l).arrivals.length
  length : ∀ l, (s.drawn l).length = (s.queue l).arrivals.length
  drawn : ∀ (l : L) (k : Nat) (i : Int), (s.drawn l)[k]? = some i → i = (int32 k).tmod maxThreads
  slot : ∀ t, s.slot t = 0 ∨ ∃ l, s.slot t ∈ s.drawn l
  spin : ∀ t l i, s.pc t = .spin l i → i ∈ s.drawn l
  noFault : Fits s → ∀ t, s.pc t ≠ .outOfBounds

theorem counted_init : Counted (init : State L T) :=
  { tail := fun _ => (int32_of_range (x := 0) (by omega) (by omega)).symm
    length := fun _ => rfl
    drawn := fun _ _ _ h => by simp [init] at h
    slot := fun _ => Or.inl rfl
    spin := fun _ _ _ h => by cases h
    noFault := fun _ _ h => by cases h }

/-- Within the limit every slot that was drawn is one of the ring. -/
theorem Counted.mem_range (h : Counted s) (hfits : Fits s) (hi : i ∈ s.drawn l) :
    ∃ k, i = slotAt k := by
  obtain ⟨k, hk⟩ := List.mem_iff_getElem?.mp hi
  have hlt := (List.getElem?_eq_some_iff.mp hk).1
  rw [h.length] at hlt
  exact ⟨k, (h.drawn l k i hk).trans (tmod_int32 (Nat.lt_of_lt_of_le hlt (hfits l)))⟩

/-- The next index is one of the ring. -/
theorem Counted.accessed_range (h : Counted s) (hfits : Fits s) (hi : accessed s t = some i) :
    ∃ k, i = slotAt k := by
  -- a thread's slot is zero at first and then one that was drawn
  have hslot : ∃ k, s.slot t = slotAt k := by
    rcases h.slot t with h0 | ⟨l, hl⟩
    · exact ⟨0, h0⟩
    · exact h.mem_range hfits hl
  unfold accessed at hi
  cases hcase : s.pc t <;> rw [hcase] at hi <;> simp only at hi
  case spin l j =>
    obtain rfl := Option.some.inj hi
    exact h.mem_range hfits (h.spin t l j hcase)
  case clearFlag l =>
    obtain rfl := Option.some.inj hi
    exact hslot
  case wakeNext l =>
    obtain ⟨k, hk⟩ := hslot
    rw [hk, slotAt_succ] at hi
    exact ⟨k + 1, (Option.some.inj hi).symm⟩
  all_goals cases hi

/-- A step that draws no ticket and after which only one thread is elsewhere. -/
theorem Counted.goto (h : Counted s) {s₁ : State L T} {pc : Pc L}
    (harr : ∀ l, (s₁.queue l).arrivals = (s.queue l).arrivals) (htail : s₁.tail = s.tail)
    (hdrawn : s₁.drawn = s.drawn) (hslot : s₁.slot = s.slot) (hpcs : s₁.pc = s.pc)
    (hspin : ∀ l i, pc ≠ .spin l i) (hfault : Fits s → pc ≠ .outOfBounds) :
    Counted (s₁.goto t pc) := by
  have hpc : ∀ u, u ≠ t → (s₁.goto t pc).pc u = s.pc u := by
    intro u hut
    simp [State.goto, hut, hpcs]
  have hpct : (s₁.goto t pc).pc t = pc := by simp [State.goto]
  refine
    { tail := fun l => ?_
      length := fun l => ?_
      drawn := fun l => ?_
      slot := fun u => ?_
      spin := fun u l i hu => ?_
      noFault := fun hfits u => ?_ }
  · show s₁.tail l = int32 (s₁.queue l).arrivals.length
    rw [htail, harr]
    exact h.tail l
  · show (s₁.drawn l).length = (s₁.queue l).arrivals.length
    rw [hdrawn, harr]
    exact h.length l
  · show ∀ (k : Nat) (i : Int), (s₁.drawn l)[k]? = some i → _
    rw [hdrawn]
    exact h.drawn l
  · show s₁.slot u = 0 ∨ ∃ l, s₁.slot u ∈ s₁.drawn l
    rw [hslot, hdrawn]
    exact h.slot u
  · show i ∈ s₁.drawn l
    rw [hdrawn]
    by_cases hut : u = t
    · rw [hut, hpct] at hu
      exact absurd hu (hspin l i)
    · rw [hpc u hut] at hu
      exact h.spin u l i hu
  · -- no ticket is drawn, so the limit held before
    have hfits' : Fits s := by
      intro l
      rw [← harr]
      exact hfits l
    by_cases hut : u = t
    · rw [hut, hpct]
      exact hfault hfits'
    · rw [hpc u hut]
      exact h.noFault hfits' u

/-- Only an index outside the ring faults. -/
theorem Counted.access (h : Counted s) {s₁ : State L T} (hi : accessed s t = some i)
    (h₁ : Counted s₁) : Counted (s.access t i s₁) := by
  unfold State.access
  split
  · exact h₁
  · rename_i hout
    refine h.goto (fun _ => rfl) rfl rfl rfl rfl (by simp) fun hfits => ?_
    obtain ⟨k, rfl⟩ := h.accessed_range hfits hi
    exact absurd (slotAt_range k) hout

/-- Drawing a ticket. -/
theorem counted_fetchAdd (h : Counted s) (hs : proceed s t (.fetchAdd l) = some s') :
    Counted s' := by
  obtain rfl := Option.some.inj hs
  -- the counter and the log of slots have gone the same way
  have hnew : (s.tail l).tmod maxThreads = (int32 (s.drawn l).length).tmod maxThreads := by
    rw [h.tail l, h.length l]
  -- what was drawn before is still in the log
  have hmem : ∀ m i, i ∈ s.drawn m → i ∈ Function.update s.drawn l
      (s.drawn l ++ [(s.tail l).tmod maxThreads]) m := by
    intro m i hi
    by_cases hm : m = l
    · subst hm
      simp [hi]
    · simpa [hm] using hi
  refine
    { tail := fun m => ?_
      length := fun m => ?_
      drawn := fun m k i hk => ?_
      slot := fun u => ?_
      spin := fun u m i hu => ?_
      noFault := fun hfits u => ?_ }
  · by_cases hm : m = l
    · subst hm
      simp only [State.goto, Function.update_self, Fifo.arrivals_arrive, List.length_append,
        List.length_singleton, h.tail m]
      exact wrap_add 32 _ _
    · simpa [State.goto, hm] using h.tail m
  · by_cases hm : m = l
    · subst hm
      simpa [State.goto] using h.length m
    · simpa [State.goto, hm] using h.length m
  · by_cases hm : m = l
    · subst hm
      simp only [State.goto, Function.update_self] at hk
      rcases Nat.lt_or_ge k (s.drawn m).length with hlt | hge
      · rw [List.getElem?_append_left hlt] at hk
        exact h.drawn m k i hk
      · -- the new slot is at the end
        rw [List.getElem?_append_right hge] at hk
        have hend : k - (s.drawn m).length = 0 := by
          by_contra hne
          rw [List.getElem?_eq_none (by simp; omega)] at hk
          cases hk
        rw [hend] at hk
        obtain rfl : (s.tail m).tmod maxThreads = i := by simpa using hk
        rw [hnew, show (s.drawn m).length = k by omega]
    · simp only [State.goto, Function.update_of_ne hm] at hk
      exact h.drawn m k i hk
  · by_cases hut : u = t
    · subst hut
      exact Or.inr ⟨l, by simp [State.goto]⟩
    · have hslot := h.slot u
      simp only [State.goto, Function.update_of_ne hut]
      rcases hslot with h0 | hdrawn
      · exact Or.inl h0
      · obtain ⟨m, hm⟩ := hdrawn
        exact Or.inr ⟨m, hmem m _ hm⟩
  · by_cases hut : u = t
    · subst hut
      simp only [State.goto, Function.update_self, Pc.spin.injEq] at hu
      obtain ⟨rfl, rfl⟩ := hu
      simp [State.goto]
    · simp only [State.goto, Function.update_of_ne hut] at hu
      exact hmem m i (h.spin u m i hu)
  · have hfits' : Fits s := by
      intro m
      have hm := hfits m
      have hpre : (s.queue m).arrivals <+: (Function.update s.queue l ((s.queue l).arrive t)
        m).arrivals := Fifo.arrivals_update_arrive
      exact Nat.le_trans hpre.length_le hm
    by_cases hut : u = t
    · subst hut
      simp [State.goto]
    · simpa [State.goto, hut] using h.noFault hfits' u

theorem counted_step {a : Action L T} (h : Counted s) (hs : step mayAcquire s a = some s') :
    Counted s' := by
  cases a with
  | acquire t l =>
    obtain ⟨-, hs⟩ := Option.ite_none_right_eq_some.mp hs
    obtain rfl := Option.some.inj hs
    exact h.goto (fun _ => rfl) rfl rfl rfl rfl (by simp) (by simp)
  | release t l =>
    obtain ⟨-, hs⟩ := Option.ite_none_right_eq_some.mp hs
    obtain rfl := Option.some.inj hs
    exact h.goto (fun _ => rfl) rfl rfl rfl rfl (by simp) (by simp)
  | advance t =>
    change proceed s t (s.pc t) = some s' at hs
    cases hcase : s.pc t <;> rw [hcase] at hs
    case fetchAdd l => exact counted_fetchAdd h hs
    case spin l i =>
      obtain rfl := Option.some.inj hs
      refine h.access (by simp [accessed, hcase]) ?_
      split
      · -- entering moves no counter and draws nothing
        let s₁ : State L T := { s with
          held := Function.update s.held t (l :: s.held t)
          queue := Function.update s.queue l ((s.queue l).enter t) }
        show Counted (s₁.goto t .idle)
        exact h.goto (fun _ => Fifo.arrivals_update_enter) rfl rfl rfl rfl (by simp) (by simp)
      · exact h
    case clearFlag l =>
      obtain rfl := Option.some.inj hs
      refine h.access (by simp [accessed, hcase]) ?_
      exact h.goto (fun _ => rfl) rfl rfl rfl rfl (by simp) (by simp)
    case wakeNext l =>
      obtain rfl := Option.some.inj hs
      refine h.access (by simp [accessed, hcase]) ?_
      exact h.goto (fun _ => Fifo.arrivals_update_depart) rfl rfl rfl rfl (by simp) (by simp)
    all_goals cases hs

theorem reachable_counted (h : Reachable (step mayAcquire) (init : State L T) s) : Counted s :=
  h.invariant (fun _ => counted_init) fun _ _ _ hI _ _ hs => counted_step hI hs

/-- Exactly the first `2^31 + 1` tickets of each lock stay within `flags` and go
round it slot by slot. -/
theorem abql_indices_iff (h : Reachable (step oneAtATime) (init : State L T) s) :
    Indexed s ↔ ∀ l, (s.queue l).arrivals.length ≤ 2 ^ 31 + 1 := by
  have hC := reachable_counted h
  constructor
  · intro hI l
    by_contra hlong
    -- the tickets `INT_MIN` and `INT_MIN + 1`
    have hlen := hC.length l
    have hfirst : (s.drawn l)[2 ^ 31]? = some ((s.drawn l)[2 ^ 31]) :=
      List.getElem?_eq_getElem (by omega)
    have hsecond : (s.drawn l)[2 ^ 31 + 1]? = some ((s.drawn l)[2 ^ 31 + 1]) :=
      List.getElem?_eq_getElem (by omega)
    have hnext := hI.consecutive l (2 ^ 31) _ _ hfirst hsecond
    rw [hC.drawn l _ _ hfirst, hC.drawn l _ _ hsecond] at hnext
    revert hnext
    decide
  · intro hfits
    -- within the limit every index is a slot of the ring
    refine ⟨fun t i hi => ?_, hC.noFault hfits, fun l k i j hi hj => ?_⟩
    · obtain ⟨k, rfl⟩ := hC.accessed_range hfits hi
      exact slotAt_range k
    · have hlt := (List.getElem?_eq_some_iff.mp hj).1
      rw [hC.length] at hlt
      have hl := hfits l
      rw [hC.drawn l k i hi, hC.drawn l _ j hj, tmod_int32 (by unfold ticketLimit; omega),
        tmod_int32 (by unfold ticketLimit; omega)]
      unfold slotAt maxThreads
      omega

theorem abql_indices_iff_handOver :
    ∃ s : State Unit Bool, Reachable (step oneAtATime) init s ∧ Indexed s := by
  obtain ⟨s, hs, hlen⟩ := (Option.any_eq_true _ _).mp
    (show (perform (step oneAtATime) (fun _ => True) (init : State Unit Bool) handOver).any
      (fun s => (s.queue ()).arrivals.length ≤ 2) = true by decide)
  have hreach := (ReachableWithin.start trivial).of_perform hs
  have hfits : (s.queue ()).arrivals.length ≤ 2 := of_decide_eq_true hlen
  exact ⟨s, hreach, (abql_indices_iff hreach).mpr fun _ => Nat.le_trans hfits (by decide)⟩

/-! ## One thread, over and over -/

/-- `Acquire` up to its loop. -/
theorem draw_steps (mayAcquire : List L → L → Bool) (hidle : s.pc t = .idle)
    (hmay : mayAcquire (s.held t) l = true) :
    ∃ s₁ s₂, step mayAcquire s (.acquire t l) = some s₁ ∧
      step mayAcquire s₁ (.advance t) = some s₂ ∧ s₁.queue = s.queue ∧
      s₂.queue = Function.update s.queue l ((s.queue l).arrive t) ∧ s₂.held = s.held ∧
      Waits s₂ t l := by
  let s₁ := s.goto t (.fetchAdd l)
  have hpc : s₁.pc t = .fetchAdd l := by simp [s₁, State.goto]
  obtain ⟨s₂, hs₂⟩ : ∃ s₂, proceed s₁ t (.fetchAdd l) = some s₂ := ⟨_, rfl⟩
  have h₂ : step mayAcquire s₁ (.advance t) = some s₂ := by
    show proceed s₁ t (s₁.pc t) = some s₂
    rw [hpc, hs₂]
  refine ⟨s₁, s₂, if_pos ⟨hidle, hmay⟩, h₂, rfl, ?_⟩
  obtain rfl := Option.some.inj hs₂
  exact ⟨rfl, rfl, (s₁.tail l).tmod maxThreads, by simp [State.goto]⟩

/-- A thread that is alone can acquire and release the lock once more. -/
theorem laps (n : Nat) (hn : n ≤ ticketLimit) : ∃ s : State Unit Unit,
    ReachableWithin (step oneAtATime) Fits init s ∧ s.pc () = .idle ∧ s.held () = [] ∧
      (s.queue ()).arrivals.length = n := by
  have hcard : Nat.card Unit ≤ 256 := by simp
  induction n with
  | zero => exact ⟨init, .start fun _ => Nat.zero_le _, rfl, rfl, rfl⟩
  | succ n ih =>
    obtain ⟨s, hreach, hidle, hheld, hlen⟩ := ih (Nat.le_of_succ_le hn)
    obtain ⟨s₁, s₂, h₁, h₂, hq₁, hq₂, hheld₂, j, hj⟩ :=
      draw_steps oneAtATime (l := ()) hidle (oneAtATime_iff.mpr hheld)
    have hlen₂ : (s₂.queue ()).arrivals.length = n + 1 := by simp [hq₂, hlen]
    have hnone : s₂.held () = [] := (congrFun hheld₂ ()).trans hheld
    -- one acquisition more, up to the loop
    have hr₂ := (hreach.step h₁ fun _ => by rw [hq₁]; exact hreach.within ()).step h₂
      fun _ => by rw [hlen₂]; exact hn
    -- nobody is inside, so the flag of its slot is true
    have hI₂ := reachable_inv hcard (reachable_one hcard hr₂).1
    have hfree : ∀ t, ¬ Owns s₂ t () := fun t h => by simp [Owns, hj, hnone] at h
    obtain ⟨t, i, hspin, hflag⟩ := hI₂.shown ⟨j, hj⟩ hfree
    have h₃ : step oneAtATime s₂ (.advance ()) = some (s₂.enter () ()) := by
      show proceed s₂ () (s₂.pc ()) = _
      rw [hI₂.proceed_eq, hspin]
      simp [hflag]
    -- the thread is let in at once
    have hlen₃ : ∀ l, ((s₂.enter () ()).queue l).arrivals.length = n + 1 := by
      intro _
      rw [State.enter, Fifo.arrivals_update_enter, hlen₂]
    have hr₃ := hr₂.step h₃ fun l => by rw [hlen₃]; exact hn
    have hI₃ := reachable_inv hcard (reachable_one hcard hr₃).1
    have hheld₃ : (s₂.enter () ()).held () = [()] := by simp [State.enter, hnone]
    -- and then its release
    obtain ⟨s₄, s₅, s₆, h₄, h₅, h₆, ⟨hq₄, hq₅, hq₆, hpc₆, hheld₆⟩, -⟩ :=
      hI₃.release_steps (t := ()) (l := ()) oneAtATime (by simp [State.enter])
        (by rw [hheld₃]; exact List.mem_cons_self)
    have hlen₆ : ∀ l, (s₆.queue l).arrivals.length = n + 1 := by
      intro l
      rw [hq₆, Fifo.arrivals_update_depart, hlen₃]
    refine ⟨s₆, ((hr₃.step h₄ fun l => ?_).step h₅ fun l => ?_).step h₆ fun l => ?_, hpc₆, ?_,
      hlen₆ ()⟩
    · rw [hq₄, hlen₃]
      exact hn
    · rw [hq₅, hlen₃]
      exact hn
    · rw [hlen₆]
      exact hn
    · rw [hheld₆, hheld₃]
      rfl

/-- After `2^31 + 1` acquisitions and releases by one thread, the next one waits
for `flags[-255]`. -/
theorem abql_negative_index :
    ∃ s : State Unit Unit, Reachable (step oneAtATime) init s ∧ ¬ Indexed s := by
  obtain ⟨s, hreach, hidle, hheld, hlen⟩ := laps ticketLimit (Nat.le_refl _)
  obtain ⟨s₁, s₂, h₁, h₂, -, hq₂, -⟩ :=
    draw_steps oneAtATime (l := ()) hidle (oneAtATime_iff.mpr hheld)
  have hr₂ : Reachable (step oneAtATime) init s₂ :=
    ((hreach.mono fun _ _ => trivial).step h₁ trivial).step h₂ trivial
  refine ⟨s₂, hr₂, fun hI => ?_⟩
  have hfits := (abql_indices_iff hr₂).mp hI ()
  rw [hq₂, Function.update_self, Fifo.arrivals_arrive, List.length_append, hlen] at hfits
  exact absurd hfits (by decide)

end LockShield.Abql
