import LockShield.Lock.Cna

/-!
# The steps of `CNALock`

Every step keeps the invariant: first the steps of threads outside the queues,
then the exchange and the link of a newcomer, then those of the owner. A `Release`
is read in three parts (`Part`): looking for a successor at all, walking the main queue
for one on the same node, and passing the lock on.

## Results

* `inv_cut`, `inv_setSecTail` — a prefix goes from the main to the secondary queue.
* `Inv.grantMain`, `inv_grantFlush` — the lock goes to the main queue, or to the first of
  the secondary queue, which then is in front of the main one.
* `inv_look`, `inv_find`, `inv_pass` — the accesses of the three parts.
* `inv_proceed`, `reachable_inv`     — every access, and every run.
-/

set_option linter.unusedSectionVars false

namespace LockShield.Cna

open Lib

variable {T : Type} [DecidableEq T] {s s' : State T} {t u o x y c head last : T} {rest : List T}

/-! ### The steps outside the queues -/

theorem inv_acquire (h : Inv s) (hidle : s.pc t = .idle) (hout : s.holding t = false) :
    Inv (s.goto t .clearNext) := by
  have hpc : (s.goto t .clearNext).pc t = .clearNext := Function.update_self ..
  have hmem : ¬ Member s t := h.not_member (by simp [OwnerOk, hidle, hout]) (by simp [hidle])
    (by simp [hidle])
  refine h.outsideStep hmem rfl rfl rfl rfl rfl
    (fun u hu => ⟨Function.update_of_ne hu .., rfl, rfl, rfl⟩) (fun hh => ?_) ?_
  · have hh : s.holding t = true := hh
    rw [hout] at hh
    cases hh
  · simp only [OutsideOk, hpc]

theorem inv_clearNext (h : Inv s) (hcase : s.pc t = .clearNext) :
    Inv ({ s with
      next := Function.update s.next t none
      socket := Function.update s.socket t (-1) }.goto t .clearSpin) := by
  set s' := ({ s with
      next := Function.update s.next t none
      socket := Function.update s.socket t (-1) } : State T).goto t .clearSpin with hs'
  have hpc : s'.pc t = .clearSpin := Function.update_self ..
  have hnext : s'.next t = none := Function.update_self ..
  have hmem : ¬ Member s t := h.not_member (by simp [OwnerOk, hcase]) (by simp [hcase])
    (by simp [hcase])
  refine h.outsideStep hmem rfl rfl rfl rfl rfl
    (fun u hu => ⟨Function.update_of_ne hu .., rfl, rfl, Function.update_of_ne hu ..⟩)
    (fun hh => absurd (h.busy t hh) (by simp [hcase])) ?_
  · simp only [OutsideOk, hpc]
    exact hnext

theorem inv_clearSpin (h : Inv s) (hcase : s.pc t = .clearSpin) :
    Inv ({ s with spin := Function.update s.spin t .zero }.goto t .swapTail) := by
  set s' := ({ s with spin := Function.update s.spin t .zero } : State T).goto t .swapTail with hs'
  have hpc : s'.pc t = .swapTail := Function.update_self ..
  have hspin : s'.spin t = .zero := Function.update_self ..
  have hmem : ¬ Member s t := h.not_member (by simp [OwnerOk, hcase]) (by simp [hcase])
    (by simp [hcase])
  have hok := h.outside t hmem
  simp only [OutsideOk, hcase] at hok
  refine h.outsideStep hmem rfl rfl rfl rfl rfl
    (fun u hu => ⟨Function.update_of_ne hu .., Function.update_of_ne hu .., rfl, rfl⟩)
    (fun hh => absurd (h.busy t hh) (by simp [hcase])) ?_
  · simp only [OutsideOk, hpc]
    exact ⟨hok, hspin⟩

/-! ### Joining the main queue -/

/-- The exchange finds no tail: the thread becomes the owner. -/
theorem inv_swapTail_free (h : Inv s) (hcase : s.pc t = .swapTail) (htail : s.tail = none) :
    Inv ({ s with tail := some t, owner := some t }.goto t .setSpin) := by
  set s' := ({ s with tail := some t, owner := some t } : State T).goto t .setSpin with hs'
  have hpc : s'.pc t = .setSpin := Function.update_self ..
  have hothers : ∀ u, u ≠ t → s'.pc u = s.pc u := fun u hu => Function.update_of_ne hu ..
  have hmem : ¬ Member s t := h.not_member (by simp [OwnerOk, hcase]) (by simp [hcase])
    (by simp [hcase])
  have hok := h.outside t hmem
  simp only [OutsideOk, hcase] at hok
  -- an owner would have set the tail
  have hnone : s.owner = none := by
    cases ho : s.owner with
    | none => rfl
    | some o =>
      rw [(h.tail o ho).1] at htail
      cases htail
  obtain ⟨hmain, hsec, -⟩ := h.free hnone
  have hmain' : s'.main = [] := hmain
  have hsec' : s'.sec = [] := hsec
  have hone : ∀ o, s'.owner = some o → o = t := fun o ho => (Option.some.inj ho).symm
  refine
    { busy := fun u hu => ?_
      outside := fun u hu => ?_
      inMain := fun u hu => by rw [hmain'] at hu; exact absurd hu List.not_mem_nil
      inSec := fun u hu => by rw [hsec'] at hu; exact absurd hu List.not_mem_nil
      nodup := by rw [hmain', hsec']; exact List.nodup_nil
      apart := fun o _ => by rw [hmain', hsec']; exact ⟨List.not_mem_nil, List.not_mem_nil⟩
      free := fun ho => by cases ho
      tail := fun o ho => ?_
      mainLinked := by rw [hmain']; exact .nil
      secLinked := by rw [hsec']; exact .nil
      ownerOk := fun o ho => ?_ }
  · have hut : u ≠ t := fun hut => absurd (h.busy u hu) (by simp [hut, hcase])
    rw [hothers u hut]
    exact h.busy u hu
  · have hut : u ≠ t := fun hut => hu (Or.inl (by rw [hut]; rfl))
    have hold : ¬ Member s u := by
      rw [Member, hnone, hmain, hsec]
      simp
    have := h.outside u hold
    unfold OutsideOk at this ⊢
    rw [hothers u hut]
    exact this
  · rw [hone o ho, hmain']
    exact ⟨rfl, hok.1⟩
  · rw [hone o ho]
    simp only [OwnerOk, hpc]
    refine ⟨fun y hy => ?_, hok.2, hsec'⟩
    rw [hmain'] at hy
    cases hy

/-- The exchange finds a tail: the thread is the last of the main queue. -/
theorem inv_swapTail_wait {tailNode : T} (h : Inv s) (hcase : s.pc t = .swapTail)
    (htail : s.tail = some tailNode) :
    Inv ({ s with tail := some t, main := s.main ++ [t] }.goto t (.link tailNode)) := by
  set s' := ({ s with tail := some t, main := s.main ++ [t] } : State T).goto t (.link tailNode)
    with hs'
  have hpc : s'.pc t = .link tailNode := Function.update_self ..
  have hothers : ∀ u, u ≠ t → s'.pc u = s.pc u := fun u hu => Function.update_of_ne hu ..
  have hmem : ¬ Member s t := h.not_member (by simp [OwnerOk, hcase]) (by simp [hcase])
    (by simp [hcase])
  have hok := h.outside t hmem
  simp only [OutsideOk, hcase] at hok
  obtain ⟨o, ho⟩ : ∃ o, s.owner = some o := by
    cases ho : s.owner with
    | none =>
      rw [(h.free ho).2.2] at htail
      cases htail
    | some o => exact ⟨o, rfl⟩
  have hone : ∀ o', s'.owner = some o' → o' = o := fun o' ho' =>
    (Option.some.inj (ho.symm.trans ho')).symm
  obtain ⟨htl, hend⟩ := h.tail o ho
  rw [htail] at htl
  obtain rfl := Option.some.inj htl
  -- the newcomer was in no place
  have hmt : t ∉ s.main := fun hm => hmem (Or.inr (Or.inl hm))
  have hst : t ∉ s.sec := fun hs => hmem (Or.inr (Or.inr hs))
  have hot : o ≠ t := fun hot => hmem (Or.inl (by rw [ho, hot]))
  have hmain' : s'.main = s.main ++ [t] := rfl
  -- the newcomer hangs at the old tail by the link it has still to store
  have hnew : Linked s' (s.main.getLastD o) t := by
    unfold Linked
    rw [hpc]
    exact ⟨rfl, hend⟩
  have hold : ∀ a b, b ∈ s.main → (Linked s' a b ↔ Linked s a b) := fun a b hb =>
    linked_congr (hothers b fun hbt => hmt (hbt ▸ hb)) rfl
  refine
    { busy := fun u hu => ?_
      outside := fun u hu => ?_
      inMain := fun u hu => ?_
      inSec := fun u hu => ?_
      nodup := ?_
      apart := fun o' ho' => ?_
      free := fun hnone => ?_
      tail := fun o' ho' => ?_
      mainLinked := ?_
      secLinked := h.secLinked
      ownerOk := fun o' ho' => ?_ }
  · have hut : u ≠ t := fun hut => absurd (h.busy u hu) (by simp [hut, hcase])
    rw [hothers u hut]
    exact h.busy u hu
  · have hut : u ≠ t := fun hut => hu (Or.inr (Or.inl (by rw [hmain', hut]; simp)))
    have hold : ¬ Member s u := by
      rintro (hu' | hu' | hu')
      · exact hu (Or.inl hu')
      · exact hu (Or.inr (Or.inl (by rw [hmain']; exact List.mem_append_left _ hu')))
      · exact hu (Or.inr (Or.inr hu'))
    have := h.outside u hold
    unfold OutsideOk at this ⊢
    rw [hothers u hut]
    exact this
  · rcases List.mem_append.mp hu with hu | hu
    · rw [hothers u fun hut => hmt (hut ▸ hu)]
      exact h.inMain u hu
    · obtain rfl := List.mem_singleton.mp hu
      exact ⟨hok.2, Or.inr ⟨_, hpc⟩⟩
  · rw [hothers u fun hut => hst (hut ▸ hu)]
    exact h.inSec u hu
  · have hperm : (s'.main ++ s'.sec).Perm (t :: (s.main ++ s.sec)) := by
      rw [hmain', List.append_assoc]
      exact List.perm_middle
    rw [hperm.nodup_iff]
    refine List.nodup_cons.mpr ⟨?_, h.nodup⟩
    simp [hmt, hst]
  · rw [hone o' ho']
    obtain ⟨hom, hos⟩ := h.apart o ho
    refine ⟨?_, hos⟩
    rw [hmain']
    simp [hom, hot]
  · have hnone : s.owner = none := hnone
    rw [ho] at hnone
    cases hnone
  · rw [hmain', List.getLastD_concat]
    exact ⟨rfl, hok.1⟩
  · rw [hmain']
    refine List.isChain_append.mpr ⟨?_, List.isChain_singleton t, fun a ha b hb => ?_⟩
    · exact h.mainLinked.imp_of_mem_imp fun a b _ hb hab => (hold a b hb).mpr hab
    · obtain rfl : t = b := by simpa using hb
      rw [List.getLastD_eq_getLast?, ha] at hnew
      exact hnew
  · rw [hone o' ho']
    refine (h.ownerOk o ho).frame (hothers o hot) rfl rfl rfl (fun _ _ => rfl) (fun _ _ => rfl)
      (fun _ hn => hn) ⟨[t], rfl⟩ (fun z hz hsp => ?_) fun hroot y hy => ?_
    · rw [hothers z fun hzt => hmt (hzt ▸ hz), hsp]
    · -- the main queue still hangs at the owner, or the newcomer does
      rw [hmain', List.head?_append] at hy
      cases hhead : s.main.head? with
      | none =>
        rw [hhead] at hy
        obtain rfl : t = y := by simpa using hy
        rw [List.head?_eq_none_iff.mp hhead] at hnew
        exact hnew
      | some z =>
        rw [hhead] at hy
        obtain rfl : z = y := by simpa using hy
        exact (hold o z (List.mem_of_mem_head? hhead)).mpr (hroot z hhead)

/-- A waiter stores its link. -/
theorem inv_link {p : T} {numa : Nat} (h : Inv s) (hcase : s.pc t = .link p) :
    Inv ({ s with
      socket := Function.update s.socket t numa
      next := Function.update s.next p (some t) }.goto t .spin) := by
  have htm := h.linking_main hcase
  obtain ⟨o, ho⟩ := h.owner_of_main htm
  obtain ⟨hom, hos⟩ := h.apart o ho
  obtain ⟨hnone, hplace⟩ := h.pending ho hcase
  obtain ⟨-, -, hdisj⟩ := List.nodup_append.mp h.nodup
  have hot : o ≠ t := fun hot => hom (hot ▸ htm)
  have hts : t ∉ s.sec := fun hs => hdisj t htm t hs rfl
  -- the node in front of `t` is the owner or in the main queue
  have hps : p ∉ s.sec := by
    rcases hplace with ⟨rfl, -⟩ | ⟨pre, post, hsplit⟩
    · exact hos
    · exact fun hs => hdisj p (by rw [hsplit]; simp) p hs rfl
  set s' := ({ s with
      socket := Function.update s.socket t numa
      next := Function.update s.next p (some t) } : State T).goto t .spin with hs'
  have hpc : s'.pc t = .spin := Function.update_self ..
  have hothers : ∀ u, u ≠ t → s'.pc u = s.pc u := fun u hu => Function.update_of_ne hu ..
  have hnextp : s'.next p = some t := Function.update_self ..
  have hnext : ∀ u, u ≠ p → s'.next u = s.next u := fun u hu => Function.update_of_ne hu ..
  have hone : ∀ o', s'.owner = some o' → o' = o := fun o' ho' =>
    (Option.some.inj (ho.symm.trans ho')).symm
  have hpt : Linked s' p t := by
    unfold Linked
    rw [hpc]
    exact hnextp
  -- nobody but `p` had `t` behind it
  have hkeep : ∀ a b, a ≠ p → Linked s a b → Linked s' a b := by
    intro a b ha hab
    have hbt : b ≠ t := by
      intro hbt
      unfold Linked at hab
      rw [hbt, hcase] at hab
      exact ha hab.1.symm
    exact (linked_congr (hothers b hbt) (hnext a ha)).mpr hab
  have hchain : s.main.IsChain (Linked s') := by
    rcases hplace with ⟨rfl, -⟩ | ⟨pre, post, hsplit⟩
    · exact h.mainLinked.imp_of_mem_imp fun a b ha _ => hkeep a b fun hap => hom (hap ▸ ha)
    · have hmain := h.mainLinked
      have hnodup := (List.nodup_append.mp h.nodup).1
      rw [hsplit] at hmain hnodup ⊢
      exact isChain_relink hnodup hkeep hpt hmain
  have hroot : Rooted s o → Rooted s' o := by
    intro hroot y hy
    rcases hplace with ⟨rfl, hhead⟩ | ⟨pre, post, hsplit⟩
    · obtain rfl := Option.some.inj (hhead.symm.trans hy)
      exact hpt
    · refine hkeep o y (fun hop => hom ?_) (hroot y hy)
      rw [hop, hsplit]
      simp
  have hlast := h.pending_not_last ho hcase
  refine
    { busy := fun u hu => ?_
      outside := fun u hu => ?_
      inMain := fun u hu => ?_
      inSec := fun u hu => ?_
      nodup := h.nodup
      apart := h.apart
      free := h.free
      tail := fun o' ho' => ?_
      mainLinked := hchain
      secLinked := ?_
      ownerOk := fun o' ho' => ?_ }
  · have hut : u ≠ t := fun hut => absurd (h.busy u hu) (by simp [hut, hcase])
    rw [hothers u hut]
    exact h.busy u hu
  · have hold : ¬ Member s u := hu
    have hut : u ≠ t := fun hut => hold (Or.inr (Or.inl (hut ▸ htm)))
    -- so a thread outside the queues keeps its `next`
    have hup : u ≠ p := by
      rintro rfl
      rcases hplace with ⟨rfl, -⟩ | ⟨pre, post, hsplit⟩
      · exact hold (Or.inl ho)
      · exact hold (Or.inr (Or.inl (by rw [hsplit]; simp)))
    have := h.outside u hold
    unfold OutsideOk at this ⊢
    rw [hothers u hut, hnext u hup]
    exact this
  · have hold := h.inMain u hu
    by_cases hut : u = t
    · subst hut
      exact ⟨hold.1, Or.inl hpc⟩
    · rw [hothers u hut]
      exact hold
  · rw [hothers u fun hut => hts (hut ▸ hu)]
    exact h.inSec u hu
  · rw [hone o' ho']
    obtain ⟨htl, hend⟩ := h.tail o ho
    exact ⟨htl, (hnext _ hlast).trans hend⟩
  · refine h.secLinked.imp_of_mem_imp fun a b ha _ hab => ?_
    rw [hnext a fun hap => hps (hap ▸ ha)]
    exact hab
  · rw [hone o' ho']
    refine (h.ownerOk o ho).frame (hothers o hot) rfl rfl rfl (fun _ _ => rfl)
      (fun z hz => hnext z fun hzp => hps (hzp ▸ hz)) (fun n hn => ?_)
      ⟨[], by simp [hs', State.goto]⟩
      (fun z hz hsp => ?_) hroot
    · rw [hnext o fun hop => by rw [hop, hnone] at hn; cases hn]
      exact hn
    · rw [hothers z fun hzt => by rw [hzt, hcase] at hsp; cases hsp]
      exact hsp

/-! ### The owner's steps -/

theorem Settled.goto {pc : Pc T} (h : Settled s o) (hom : o ∉ s.main) :
    Settled (s.goto o pc) o :=
  h.congr rfl rfl rfl (fun _ _ => rfl) (fun _ _ => rfl) fun z hz =>
    Function.update_of_ne (fun hzo : z = o => hom (hzo ▸ hz)) ..

theorem Walked.goto {pc : Pc T} (h : Walked s head last rest) (hom : o ∉ s.main) :
    Walked (s.goto o pc) head last rest := by
  obtain ⟨pre, hmain, hhead, hlast, hspin⟩ := h
  refine ⟨pre, hmain, hhead, hlast, fun z hz => ?_⟩
  have hzo : z ≠ o := fun hzo => hom (by rw [hmain, ← hzo]; exact List.mem_append_left rest hz)
  exact (Function.update_of_ne hzo ..).trans (hspin z hz)

/-- `find_successor` starts with the first node of the main queue. -/
theorem First.walked (h : First s c) : Walked s c c s.main.tail := by
  refine ⟨[c], (List.cons_head?_tail h.1).symm, rfl, rfl, fun z hz => ?_⟩
  rw [List.mem_singleton.mp hz]
  exact h.2

/-- The prefix grows by one node. -/
theorem Walked.concat (h : Walked s head last (x :: rest)) (hx : s.pc x = .spin) :
    Walked s head x rest := by
  obtain ⟨pre, hmain, hhead, -, hspin⟩ := h
  refine ⟨pre ++ [x], by rw [hmain, List.append_assoc]; rfl, ?_, by simp, fun z hz => ?_⟩
  · rw [List.head?_append, hhead]
    rfl
  · rcases List.mem_append.mp hz with hz | hz
    · exact hspin z hz
    · rw [List.mem_singleton.mp hz]
      exact hx

theorem Found.goto {pc : Pc T} (h : Found s head last c) (hom : o ∉ s.main) :
    Found (s.goto o pc) head last c := by
  obtain ⟨hc, rest, hw⟩ := h
  have hco : c ≠ o := fun hco => hom (hco ▸ hw.mem c List.mem_cons_self)
  exact ⟨(Function.update_of_ne hco ..).trans hc, rest, hw.goto hom⟩

theorem First.goto {pc : Pc T} (h : First s c) (hom : o ∉ s.main) : First (s.goto o pc) c :=
  have hco : c ≠ o := fun hco => hom (hco ▸ List.mem_of_mem_head? h.1)
  ⟨h.1, (Function.update_of_ne hco ..).trans h.2⟩

/-- A thread that only moves on within `Release`. -/
theorem inv_goto {pc : Pc T} (h : Inv s) (ho : s.owner = some o) (hbusy : s.pc o ≠ .idle)
    (hok : OwnerOk (s.goto o pc) o) : Inv (s.goto o pc) :=
  h.move ho ⟨rfl, rfl, rfl, rfl, rfl, rfl⟩ (fun _ hu => ⟨Function.update_of_ne hu .., rfl⟩)
    (fun hh => absurd (h.busy o hh) hbusy) hok

/-- `Acquire` returns to a waiter that was granted the lock. -/
theorem inv_enter (h : Inv s) (hcase : s.pc t = .spin) (hspin : s.spin t ≠ .zero) :
    Inv ({ s with holding := Function.update s.holding t true }.goto t .idle) := by
  have ho := h.owner_of_inside (by simp [OutsideOk, hcase]) (fun hm => hspin (h.inMain t hm).1)
    fun hs => hspin (h.inSec t hs).1
  have hok := h.ownerOk t ho
  simp only [OwnerOk, hcase] at hok
  set s' := ({ s with holding := Function.update s.holding t true } : State T).goto t .idle with hs'
  have hpc : s'.pc t = .idle := Function.update_self ..
  have hhold : s'.holding t = true := Function.update_self ..
  refine h.move ho ⟨rfl, rfl, rfl, rfl, rfl, rfl⟩ (fun u hu => ?_) (fun _ => hpc) ?_
  · exact ⟨Function.update_of_ne hu .., Function.update_of_ne hu ..⟩
  · simp only [OwnerOk, hpc]
    exact ⟨Settled.goto (s := { s with holding := Function.update s.holding t true }) hok
      (h.apart t ho).1, hhold⟩

/-- `Release` begins. -/
theorem inv_release (h : Inv s) (hidle : s.pc t = .idle) (hhold : s.holding t = true) :
    Inv ({ s with holding := Function.update s.holding t false }.goto t .loadNext) := by
  -- who holds the lock is the owner
  have ho := h.owner_of_inside (t := t) (by simp [OutsideOk, hidle, hhold])
    (fun hm => by simpa [hidle] using (h.inMain t hm).2)
    fun hs => by simpa [hidle] using (h.inSec t hs).2
  have hok := h.ownerOk t ho
  simp only [OwnerOk, hidle] at hok
  set s' := ({ s with holding := Function.update s.holding t false } : State T).goto t .loadNext
    with hs'
  have hpc : s'.pc t = .loadNext := Function.update_self ..
  have hhold' : s'.holding t = false := Function.update_self ..
  refine h.move ho ⟨rfl, rfl, rfl, rfl, rfl, rfl⟩ (fun u hu => ?_) (fun hh => ?_) ?_
  · exact ⟨Function.update_of_ne hu .., Function.update_of_ne hu ..⟩
  · rw [hhold'] at hh
    cases hh
  · simp only [OwnerOk, hpc]
    exact Settled.goto (s := { s with holding := Function.update s.holding t false }) hok.1
      (h.apart t ho).1

/-- `Acquire` returns to a thread that found the lock free. -/
theorem inv_setSpin (h : Inv s) (ho : s.owner = some o) (hcase : s.pc o = .setSpin) :
    Inv ({ s with
      spin := Function.update s.spin o .one
      holding := Function.update s.holding o true }.goto o .idle) := by
  obtain ⟨hom, hos⟩ := h.apart o ho
  have hok := h.ownerOk o ho
  simp only [OwnerOk, hcase] at hok
  obtain ⟨hroot, -, hsec⟩ := hok
  set s' := ({ s with
      spin := Function.update s.spin o .one
      holding := Function.update s.holding o true } : State T).goto o .idle with hs'
  have hpc : s'.pc o = .idle := Function.update_self ..
  have hspin : s'.spin o = .one := Function.update_self ..
  have hhold : s'.holding o = true := Function.update_self ..
  have hothers : ∀ u, u ≠ o → s'.pc u = s.pc u ∧ s'.spin u = s.spin u ∧
      s'.holding u = s.holding u := fun u hu => by simp [hs', State.goto, hu]
  have hpcs : ∀ z ∈ s.main, s'.pc z = s.pc z := fun z hz => (hothers z fun hzo => hom (hzo ▸ hz)).1
  have hsec' : s'.sec = [] := hsec
  refine h.ownerStep ho ho (fun _ => Iff.rfl) h.nodup (fun _ _ _ hz => hz) hothers (fun _ _ => rfl)
    (fun _ => hpc) (h.tail o ho) ?_ h.secLinked ?_
  · exact main_congr h.mainLinked rfl (fun _ _ => rfl) hpcs
  · simp only [OwnerOk, hpc]
    -- the secondary queue is empty
    refine ⟨⟨hroot.congr rfl rfl hpcs, by rw [hspin, hsec']; rfl, fun z hz => ?_, fun z hz => ?_⟩,
      hhold⟩
    · rw [hsec'] at hz
      cases hz
    · rw [hsec'] at hz
      cases hz

/-- The owner is the tail, so nobody is in the main queue. -/
theorem Inv.main_empty (h : Inv s) (ho : s.owner = some o) (htail : s.tail = some o) :
    s.main = [] := by
  by_contra hne
  have htl := (h.tail o ho).1
  rw [htail, List.getLastD_eq_getLast?, List.getLast?_eq_some_getLast hne] at htl
  refine (h.apart o ho).1 ?_
  rw [Option.some.inj htl]
  exact List.getLast_mem hne

/-- `Release` finds both queues empty. -/
theorem inv_casNull (h : Inv s) (ho : s.owner = some o) (hcase : s.pc o = .casNull)
    (htail : s.tail = some o) :
    Inv ({ s with tail := none, owner := none }.goto o .idle) := by
  obtain ⟨hom, hos⟩ := h.apart o ho
  have hok := h.ownerOk o ho
  simp only [OwnerOk, hcase] at hok
  -- the owner is the last node, so nobody is behind it and the lock is free
  have hmain := h.main_empty ho htail
  have hhold := h.not_holding hcase (by simp)
  set s' := ({ s with tail := none, owner := none } : State T).goto o .idle with hs'
  have hpc : s'.pc o = .idle := Function.update_self ..
  have hothers : ∀ u, u ≠ o → s'.pc u = s.pc u := fun u hu => Function.update_of_ne hu ..
  have hmain' : s'.main = [] := hmain
  have hsec' : s'.sec = [] := hok.2
  refine
    { busy := fun u hu => ?_
      outside := fun u hu => ?_
      inMain := fun u hu => by rw [hmain'] at hu; exact absurd hu List.not_mem_nil
      inSec := fun u hu => by rw [hsec'] at hu; exact absurd hu List.not_mem_nil
      nodup := by rw [hmain', hsec']; exact List.nodup_nil
      apart := fun o' ho' => by cases ho'
      free := fun _ => ⟨hmain', hsec', rfl⟩
      tail := fun o' ho' => by cases ho'
      mainLinked := by rw [hmain']; exact .nil
      secLinked := by rw [hsec']; exact .nil
      ownerOk := fun o' ho' => by cases ho' }
  · have huo : u ≠ o := by
      intro huo
      have hu : s.holding u = true := hu
      rw [huo, hhold] at hu
      cases hu
    rw [hothers u huo]
    exact h.busy u hu
  · by_cases huo : u = o
    · subst huo
      simp only [OutsideOk, hpc]
      exact hhold
    · -- a thread outside was outside before
      have hold : ¬ Member s u := by
        rw [Member, ho, hmain, hok.2]
        simp [Ne.symm huo]
      have := h.outside u hold
      unfold OutsideOk at this ⊢
      rw [hothers u huo]
      exact this

/-- `Release` makes the secondary queue the main queue, which is empty. -/
theorem inv_casSec (h : Inv s) (ho : s.owner = some o) (hcase : s.pc o = .casSec x)
    (htail : s.tail = some o) :
    Inv ({ s with tail := s.secTail x, main := s.sec, sec := [] }.goto o (.grantSec x)) := by
  obtain ⟨hom, hos⟩ := h.apart o ho
  have hok := h.ownerOk o ho
  simp only [OwnerOk, hcase] at hok
  obtain ⟨⟨-, -, hclosed, hsecTail⟩, hx⟩ := hok
  have hmain := h.main_empty ho htail
  set s' := ({ s with tail := s.secTail x, main := s.sec, sec := [] } : State T).goto o
    (.grantSec x) with hs'
  have hpc : s'.pc o = .grantSec x := Function.update_self ..
  have hothers : ∀ u, u ≠ o → s'.pc u = s.pc u := fun u hu => Function.update_of_ne hu ..
  have hmain' : s'.main = s.sec := rfl
  have hsec' : s'.sec = [] := rfl
  have hnodup := h.nodup
  rw [hmain, List.nil_append] at hnodup
  have hso : ∀ z ∈ s.sec, z ≠ o := fun z hz hzo => hos (hzo ▸ hz)
  refine h.ownerStep ho ho (fun z => by rw [hmain', hsec', hmain]; simp)
    (by rw [hmain', hsec', List.append_nil]; exact hnodup)
    (fun z _ _ hz => by rw [hmain] at hz; exact absurd hz List.not_mem_nil)
    (fun u hu => ⟨hothers u hu, rfl, rfl⟩) (fun _ _ => rfl)
    (fun hh => absurd (h.busy o hh) (by simp [hcase])) ⟨?_, ?_⟩ ?_ .nil ?_
  · -- the new tail is the last of the secondary queue
    show s.secTail x = some (s.sec.getLastD o)
    rw [hsecTail x hx, List.getLastD_eq_getLast?,
      List.getLast?_eq_some_getLast (List.ne_nil_of_mem (List.mem_of_mem_head? hx))]
    rfl
  · show s.next (s.sec.getLastD o) = none
    have hne := List.ne_nil_of_mem (List.mem_of_mem_head? hx)
    refine hclosed _ ?_
    rw [List.getLastD_eq_getLast?, List.getLast?_eq_some_getLast hne]
    rfl
  · -- the nodes of the secondary queue have stored their links
    refine h.secLinked.imp_of_mem_imp fun a b _ hb hab => ?_
    unfold Linked
    rw [hothers b (hso b hb), (h.inSec b hb).2]
    exact hab
  · simp only [OwnerOk, hpc]
    have hxs := List.mem_of_mem_head? hx
    exact ⟨⟨hx, (hothers x (hso x hxs)).trans (h.inSec x hxs).2⟩, hsec'⟩

/-- The owner stores a link behind the secondary queue. -/
theorem Inv.linkSec {y : T} {n : Option T} {pc : Pc T} (h : Inv s) (ho : s.owner = some o)
    (hbusy : s.pc o ≠ .idle) (hlast : s.sec.getLast? = some y)
    (hok : (Rooted s o → Rooted ({ s with next := Function.update s.next y n }.goto o pc) o) →
      OwnerOk ({ s with next := Function.update s.next y n }.goto o pc) o) :
    Inv ({ s with next := Function.update s.next y n }.goto o pc) := by
  obtain ⟨hom, hos⟩ := h.apart o ho
  have hys := List.mem_of_mem_getLast? hlast
  obtain ⟨-, -, hdisj⟩ := List.nodup_append.mp h.nodup
  -- the node is the last of the secondary queue, and in no other
  have hym : y ∉ s.main := fun hm => hdisj y hm y hys rfl
  have hyo : y ≠ o := fun hyo => hos (hyo ▸ hys)
  set s' := ({ s with next := Function.update s.next y n } : State T).goto o pc with hs'
  have hothers : ∀ u, u ≠ o → s'.pc u = s.pc u := fun u hu => Function.update_of_ne hu ..
  have hpcs : ∀ z ∈ s.main, s'.pc z = s.pc z := fun z hz => hothers z fun hzo => hom (hzo ▸ hz)
  have hnext : ∀ u, u ≠ y → s'.next u = s.next u := fun u hu => Function.update_of_ne hu ..
  refine h.ownerStep ho ho (fun _ => Iff.rfl) h.nodup (fun _ _ _ hz => hz)
    (fun u hu => ⟨hothers u hu, rfl, rfl⟩) (fun u hu => hnext u ?_)
    (fun hh => absurd (h.busy o hh) hbusy) ⟨(h.tail o ho).1, ?_⟩ ?_ ?_
    (hok fun hroot => hroot.congr rfl (hnext o hyo.symm) hpcs)
  · rintro rfl
    exact hu (Or.inr (Or.inr hys))
  · refine (hnext _ fun heq => ?_).trans (h.tail o ho).2
    rcases List.mem_cons.mp (List.getLastD_mem_cons (l := s.main) (a := o)) with hlo | hlm
    · exact hyo (heq.symm.trans hlo)
    · exact hym (heq ▸ hlm)
  · exact main_congr h.mainLinked rfl (fun z hz => hnext z fun hzy => hym (hzy ▸ hz)) hpcs
  · -- the links up to it are as they were
    obtain ⟨pre, hpre⟩ := List.getLast?_eq_some_iff.mp hlast
    have hnodup := (List.nodup_append.mp h.nodup).2.1
    have hsec := h.secLinked
    show s.sec.IsChain _
    rw [hpre] at hnodup hsec ⊢
    refine isChain_concat_imp (fun a ha b hab => ?_) hsec
    have hay : a ≠ y := fun hay =>
      (List.nodup_append.mp hnodup).2.2 a ha y (List.mem_singleton_self y) hay
    rw [hnext a hay]
    exact hab

/-- The prefix is linked behind the secondary queue. -/
theorem inv_appendSplice {y : T} (h : Inv s) (ho : s.owner = some o)
    (hcase : s.pc o = .appendSplice head last c x) (hy : s.secTail x = some y) :
    Inv ({ s with next := Function.update s.next y (some head) }.goto o (.cut head last c)) := by
  have hom := (h.apart o ho).1
  have hok := h.ownerOk o ho
  simp only [OwnerOk, hcase] at hok
  obtain ⟨⟨hroot, hspin, hclosed, hsecTail⟩, hfound, hx⟩ := hok
  have hlast : s.sec.getLast? = some y := (hsecTail x hx).symm.trans hy
  refine h.linkSec ho (by simp [hcase]) hlast fun hkeep => ?_
  have hpc : (({ s with next := Function.update s.next y (some head) } : State T).goto o
    (.cut head last c)).pc o = .cut head last c := Function.update_self ..
  simp only [OwnerOk, hpc]
  refine ⟨hkeep hroot, ?_, Or.inr ⟨y, hlast, Function.update_self .., hspin⟩, hsecTail⟩
  exact Found.goto (s := { s with next := Function.update s.next y (some head) }) hfound hom

/-- The prefix begins the secondary queue. -/
theorem inv_storeSplice (h : Inv s) (ho : s.owner = some o)
    (hcase : s.pc o = .storeSplice head last c) :
    Inv ({ s with spin := Function.update s.spin o (.node head) }.goto o (.cut head last c)) := by
  obtain ⟨hom, hos⟩ := h.apart o ho
  have hok := h.ownerOk o ho
  simp only [OwnerOk, hcase] at hok
  obtain ⟨⟨hroot, -, -, hsecTail⟩, hfound, hsec⟩ := hok
  set s' := ({ s with spin := Function.update s.spin o (.node head) } : State T).goto o
    (.cut head last c) with hs'
  have hpc : s'.pc o = .cut head last c := Function.update_self ..
  have hothers : ∀ u, u ≠ o → s'.pc u = s.pc u ∧ s'.spin u = s.spin u := by
    intro u hu
    simp [hs', State.goto, hu]
  -- nobody in the main queue moves
  have hpcs : ∀ z ∈ s.main, s'.pc z = s.pc z := fun z hz => (hothers z fun hzo => hom (hzo ▸ hz)).1
  refine h.ownerStep ho ho (fun _ => Iff.rfl) h.nodup (fun _ _ _ hz => hz)
    (fun u hu => ⟨(hothers u hu).1, (hothers u hu).2, rfl⟩) (fun _ _ => rfl)
    (fun hh => absurd (h.busy o hh) (by simp [hcase])) (h.tail o ho) ?_ h.secLinked ?_
  · exact main_congr h.mainLinked rfl (fun _ _ => rfl) hpcs
  · simp only [OwnerOk, hpc]
    refine ⟨hroot.congr rfl rfl hpcs, ?_, Or.inl ⟨hsec, Function.update_self ..⟩, hsecTail⟩
    exact Found.goto (s := { s with spin := Function.update s.spin o (.node head) }) hfound hom

/-- The prefix is what comes before the node that `find_successor` has found. -/
theorem Found.split (h : Found s head last c) (hnodup : s.main.Nodup) : ∃ pre rest,
    s.main = pre ++ c :: rest ∧ pre.head? = some head ∧
      (pre.getLast? = some last ∧ ∀ y ∈ pre, s.pc y = .spin) ∧
      s.main.takeWhile (· ≠ c) = pre ∧ s.main.dropWhile (· ≠ c) = c :: rest := by
  obtain ⟨-, rest, pre, hmain, hhead, hlast, hspin⟩ := h
  rw [hmain] at hnodup
  -- `c` is right behind the prefix, so `takeWhile` stops there
  have hcpre : c ∉ pre := fun hc =>
    (List.nodup_append.mp hnodup).2.2 c hc c List.mem_cons_self rfl
  have hne : ∀ z ∈ pre, decide (z ≠ c) = true := by
    intro z hz
    simpa using fun hzc : z = c => hcpre (hzc ▸ hz)
  refine ⟨pre, rest, hmain, hhead, ⟨hlast, hspin⟩, ?_, ?_⟩
  · rw [hmain, List.takeWhile_append_of_pos hne]
    simp
  · rw [hmain, List.dropWhile_append_of_pos hne]
    simp

/-- The prefix is cut off the main queue. -/
theorem inv_cut (h : Inv s) (ho : s.owner = some o) (hcase : s.pc o = .cut head last c) :
    Inv ({ s with
      next := Function.update s.next last none
      main := s.main.dropWhile (· ≠ c)
      sec := s.sec ++ s.main.takeWhile (· ≠ c) }.goto o (.setSecTail last c)) := by
  obtain ⟨hom, hos⟩ := h.apart o ho
  have hok := h.ownerOk o ho
  simp only [OwnerOk, hcase] at hok
  obtain ⟨-, hfound, hspliced, -⟩ := hok
  have hcspin := hfound.1
  obtain ⟨hmainNodup, hsecNodup, hdisj⟩ := List.nodup_append.mp h.nodup
  obtain ⟨pre, rest, hmain, hhead, ⟨hlast, hprespin⟩, htake, hdrop⟩ := hfound.split hmainNodup
  have hchain := h.mainLinked
  rw [hmain] at hchain hmainNodup
  obtain ⟨hpreNodup, -, hpredisj⟩ := List.nodup_append.mp hmainNodup
  -- the link that is cut belongs to the main queue
  have hlastm : last ∈ pre := List.mem_of_mem_getLast? hlast
  have hlasts : last ∉ s.sec := fun hs =>
    hdisj last (by rw [hmain]; exact List.mem_append_left _ hlastm) last hs rfl
  rw [htake, hdrop]
  set s' := ({ s with
      next := Function.update s.next last none
      main := c :: rest
      sec := s.sec ++ pre } : State T).goto o (.setSecTail last c) with hs'
  have hpc : s'.pc o = .setSecTail last c := Function.update_self ..
  have hothers : ∀ u, u ≠ o → s'.pc u = s.pc u := fun u hu => Function.update_of_ne hu ..
  have hnext : ∀ u, u ≠ last → s'.next u = s.next u := fun u hu => Function.update_of_ne hu ..
  have hmain' : s'.main = c :: rest := rfl
  have hsec' : s'.sec = s.sec ++ pre := rfl
  have hmo : ∀ z ∈ s.main, z ≠ o := fun z hz hzo => hom (hzo ▸ hz)
  have hperm : (s'.main ++ s'.sec).Perm (s.main ++ s.sec) := by
    rw [hmain', hsec', hmain, List.append_assoc]
    rw [← List.append_assoc (c :: rest)]
    exact List.perm_append_comm
  -- the links inside the prefix are stored
  have hpreLinked : pre.IsChain fun a b => s'.next a = some b := by
    obtain ⟨init, hinit⟩ := List.getLast?_eq_some_iff.mp hlast
    have hpre := (List.isChain_append.mp hchain).1
    have hstored : pre.IsChain fun a b => s.next a = some b := by
      refine hpre.imp_of_mem_imp fun a b _ hb hab => ?_
      unfold Linked at hab
      rw [hprespin b hb] at hab
      exact hab
    rw [hinit] at hpreNodup hstored ⊢
    refine isChain_concat_imp (fun a ha b hab => ?_) hstored
    have hal : a ≠ last := fun hal =>
      (List.nodup_append.mp hpreNodup).2.2 a ha last (List.mem_singleton_self last) hal
    rw [hnext a hal]
    exact hab
  refine h.ownerStep ho ho (fun z => ?_) (hperm.nodup_iff.mpr h.nodup) (fun z p hp hz => ?_)
    (fun u hu => ⟨hothers u hu, rfl, rfl⟩) (fun u hu => hnext u ?_)
    (fun hh => absurd (h.busy o hh) (by simp [hcase])) ⟨?_, ?_⟩ ?_ ?_ ?_
  · have := hperm.mem_iff (a := z)
    simpa only [List.mem_append] using this
  · rw [hmain] at hz
    rcases List.mem_append.mp hz with hz | hz
    · rw [hprespin z hz] at hp
      cases hp
    · exact hz
  · rintro rfl
    exact hu (Or.inr (Or.inl (by rw [hmain]; exact List.mem_append_left _ hlastm)))
  · -- the last of the main queue is behind the prefix
    have htl := (h.tail o ho).1
    rw [List.getLastD_eq_getLast?, hmain,
      List.getLast?_append_of_ne_nil _ (List.cons_ne_nil c rest)]
      at htl
    show s.tail = _
    rw [htl, hmain', List.getLastD_eq_getLast?]
  · have hend := (h.tail o ho).2
    rw [List.getLastD_eq_getLast?, hmain,
      List.getLast?_append_of_ne_nil _ (List.cons_ne_nil c rest),
      ← List.getLastD_eq_getLast?] at hend
    rw [hmain']
    by_cases hl : (c :: rest).getLastD o = last
    · rw [hl]
      exact Function.update_self ..
    · exact (hnext _ hl).trans hend
  · rw [hmain']
    refine (List.isChain_append.mp hchain).2.1.imp_of_mem_imp fun a b ha hb hab => ?_
    have hal : a ≠ last := fun hal => hpredisj last hlastm a ha hal.symm
    have hbm : b ∈ s.main := by rw [hmain]; exact List.mem_append_right pre hb
    exact (linked_congr (hothers b (hmo b hbm)) (hnext a hal)).mpr hab
  · rw [hsec']
    refine List.isChain_append.mpr ⟨?_, hpreLinked, fun a ha b hb => ?_⟩
    · refine h.secLinked.imp_of_mem_imp fun a b ha _ hab => ?_
      rw [hnext a fun hal => hlasts (hal ▸ ha)]
      exact hab
    · -- the prefix begins the secondary queue or was linked behind it
      rcases hspliced with ⟨hnil, -⟩ | ⟨y, hy, hlink, -⟩
      · rw [hnil] at ha
        cases ha
      · obtain rfl := Option.some.inj (hy.symm.trans ha)
        obtain rfl := Option.some.inj (hhead.symm.trans hb)
        rw [hnext y fun hyl => hlasts (hyl ▸ List.mem_of_mem_getLast? hy)]
        exact hlink
  · simp only [OwnerOk, hpc]
    have hcm : c ∈ s.main := by rw [hmain]; simp
    have hpren : pre ≠ [] := List.ne_nil_of_mem hlastm
    have hlast' : s'.sec.getLast? = some last := by
      rw [hsec', List.getLast?_append_of_ne_nil _ hpren, hlast]
    refine ⟨⟨rfl, (hothers c (hmo c hcm)).trans hcspin⟩, ?_, fun z hz => ?_, hlast'⟩
    · show s.spin o = _
      rw [hsec']
      rcases hspliced with ⟨hnil, hsp⟩ | ⟨y, hy, -, hsp⟩
      · rw [hnil, List.nil_append, hsp, eq_comm, secSpin_node]
        exact hhead
      · rw [hsp]
        cases hs : s.sec with
        | nil =>
          rw [hs] at hy
          cases hy
        | cons z l => rfl
    · obtain rfl := Option.some.inj (hlast'.symm.trans hz)
      exact Function.update_self ..

theorem inv_setSecTail (h : Inv s) (ho : s.owner = some o)
    (hcase : s.pc o = .setSecTail last c) (hx : s.spin o = .node x) :
    Inv ({ s with secTail := Function.update s.secTail x (some last) }.goto o (.passLoad c)) := by
  obtain ⟨hom, hos⟩ := h.apart o ho
  have hok := h.ownerOk o ho
  simp only [OwnerOk, hcase] at hok
  obtain ⟨hfirst, hspin, hclosed, hlast⟩ := hok
  set s' := ({ s with secTail := Function.update s.secTail x (some last) } : State T).goto o
    (.passLoad c) with hs'
  have hpc : s'.pc o = .passLoad c := Function.update_self ..
  have hothers : ∀ u, u ≠ o → s'.pc u = s.pc u := fun u hu => Function.update_of_ne hu ..
  refine h.ownerStep ho ho (fun _ => Iff.rfl) h.nodup (fun _ _ _ hz => hz)
    (fun u hu => ⟨hothers u hu, rfl, rfl⟩) (fun _ _ => rfl)
    (fun hh => absurd (h.busy o hh) (by simp [hcase])) (h.tail o ho) ?_ h.secLinked ?_
  · exact main_congr h.mainLinked rfl (fun _ _ => rfl)
      fun z hz => hothers z fun hzo => hom (hzo ▸ hz)
  · simp only [OwnerOk, hpc]
    refine ⟨?_, hspin, hclosed, fun z hz => ?_⟩
    · exact First.goto (s := { s with secTail := Function.update s.secTail x (some last) }) hfirst
        hom
    · have hz : s.sec.head? = some z := hz
      -- the head of the queue is the node whose `secTail` was set
      have hzx : z = x := by
        rw [hspin, secSpin_node, hz] at hx
        exact Option.some.inj hx
      show Function.update s.secTail x (some last) z = s.sec.getLast?
      rw [hzx, Function.update_self, hlast]

/-- The main queue is linked behind the secondary queue. -/
theorem inv_flush {y : T} {n : Option T} (h : Inv s) (ho : s.owner = some o)
    (hcase : s.pc o = .flush x n) (hy : s.secTail x = some y) :
    Inv ({ s with next := Function.update s.next y n }.goto o (.grantFlush x)) := by
  have hom := (h.apart o ho).1
  have hok := h.ownerOk o ho
  simp only [OwnerOk, hcase] at hok
  obtain ⟨⟨hroot, hspin, hclosed, hsecTail⟩, hx, hn, hne⟩ := hok
  obtain ⟨m, rfl⟩ := Option.ne_none_iff_exists'.mp hne
  have hfirst := h.next_first ho hroot hn
  have hlast : s.sec.getLast? = some y := (hsecTail x hx).symm.trans hy
  refine h.linkSec ho (by simp [hcase]) hlast fun hkeep => ?_
  have hpc : (({ s with next := Function.update s.next y (some m) } : State T).goto o
    (.grantFlush x)).pc o = .grantFlush x := Function.update_self ..
  simp only [OwnerOk, hpc]
  refine ⟨hkeep hroot, hspin, hsecTail, hx, y, m, hlast, Function.update_self .., ?_⟩
  exact First.goto (s := { s with next := Function.update s.next y (some m) }) hfirst hom

/-- The last store of `Release`. -/
theorem Inv.grant {v : Spin T} {main sec : List T} (h : Inv s) (ho : s.owner = some o)
    (hbusy : s.pc o ≠ .idle) (hc : s.pc c = .spin)
    (hperm : (c :: (main ++ sec)).Perm (s.main ++ s.sec))
    (hlinking : ∀ z p, s.pc z = .link p → z ∈ main)
    (htail : s.tail = some (main.getLastD c) ∧ s.next (main.getLastD c) = none)
    (hmain : (c :: main).IsChain (Linked s)) (hsec : sec.IsChain fun x y => s.next x = some y)
    (hclosed : ∀ z, sec.getLast? = some z → s.next z = none)
    (hsecTail : ∀ z, sec.head? = some z → s.secTail z = sec.getLast?) (hv : v = secSpin sec) :
    Inv (s.grant o c v main sec) := by
  obtain ⟨hom, hos⟩ := h.apart o ho
  have hnodup := hperm.nodup_iff.mpr h.nodup
  have hold : ∀ z, z = c ∨ z ∈ main ∨ z ∈ sec ↔ z ∈ s.main ∨ z ∈ s.sec := by
    intro z
    have := hperm.mem_iff (a := z)
    simpa only [List.mem_cons, List.mem_append] using this
  have hne : ∀ z, z = c ∨ z ∈ main ∨ z ∈ sec → z ≠ o := by
    rintro z hz rfl
    exact ((hold z).mp hz).elim hom hos
  -- everybody in the queues waits, the successor too
  have hwait : ∀ z, z = c ∨ z ∈ main ∨ z ∈ sec →
      s.spin z = .zero ∧ (s.pc z = .spin ∨ ∃ p, s.pc z = .link p) := by
    intro z hz
    rcases (hold z).mp hz with hm | hs
    · exact h.inMain z hm
    · exact ⟨(h.inSec z hs).1, Or.inl (h.inSec z hs).2⟩
  have hhold := h.not_holding rfl hbusy
  obtain ⟨hcnot, hrestNodup⟩ := List.nodup_cons.mp hnodup
  have hcm : c ∉ main := fun hm => hcnot (List.mem_append_left sec hm)
  have hcs : c ∉ sec := fun hs => hcnot (List.mem_append_right main hs)
  have hco : c ≠ o := hne c (Or.inl rfl)
  set s' := s.grant o c v main sec with hs'
  have hpco : s'.pc o = .idle := Function.update_self ..
  have hothers : ∀ u, u ≠ o → s'.pc u = s.pc u := fun u hu => Function.update_of_ne hu ..
  have hspinc : s'.spin c = v := Function.update_self ..
  have hspin : ∀ u, u ≠ c → s'.spin u = s.spin u := fun u hu => Function.update_of_ne hu ..
  have hmain' : s'.main = main := rfl
  have hsec' : s'.sec = sec := rfl
  have hone : ∀ o', s'.owner = some o' → o' = c := fun o' ho' => (Option.some.inj ho').symm
  obtain ⟨hhead, hrest⟩ := List.isChain_cons.mp hmain
  have hlinked : ∀ a b, b ∈ main → (Linked s' a b ↔ Linked s a b) := fun a b hb =>
    linked_congr (hothers b (hne b (Or.inr (Or.inl hb)))) rfl
  refine
    { busy := fun u hu => ?_
      outside := fun u hu => ?_
      inMain := fun u hu => ?_
      inSec := fun u hu => ?_
      nodup := hrestNodup
      apart := fun o' ho' => by rw [hone o' ho']; exact ⟨hcm, hcs⟩
      free := fun hnone => by cases hnone
      tail := fun o' ho' => by rw [hone o' ho']; exact htail
      mainLinked := hrest.imp_of_mem_imp fun a b _ hb hab => (hlinked a b hb).mpr hab
      secLinked := hsec
      ownerOk := fun o' ho' => ?_ }
  · by_cases huo : u = o
    · rw [huo, hpco]
    · rw [hothers u huo]
      exact h.busy u hu
  · by_cases huo : u = o
    · subst huo
      simp only [OutsideOk, hpco]
      exact hhold
    · have huc : u ≠ c := fun huc => hu (Or.inl (by rw [huc]; rfl))
      have hout : ¬ Member s u := by
        rintro (hu' | hu')
        · exact huo (Option.some.inj (ho.symm.trans hu')).symm
        · rcases (hold u).mpr hu' with rfl | hm | hs
          · exact huc rfl
          · exact hu (Or.inr (Or.inl hm))
          · exact hu (Or.inr (Or.inr hs))
      have := h.outside u hout
      unfold OutsideOk at this ⊢
      rw [hothers u huo, hspin u huc]
      exact this
  · have hw := hwait u (Or.inr (Or.inl hu))
    rw [hothers u (hne u (Or.inr (Or.inl hu))), hspin u fun huc => hcm (huc ▸ hu)]
    exact hw
  · obtain ⟨hz, hpc⟩ := hwait u (Or.inr (Or.inr hu))
    rw [hothers u (hne u (Or.inr (Or.inr hu))), hspin u fun huc => hcs (huc ▸ hu)]
    -- who has a link to store is in the new main queue
    refine ⟨hz, hpc.resolve_right ?_⟩
    rintro ⟨p, hp⟩
    exact (List.nodup_append.mp hrestNodup).2.2 u (hlinking u p hp) u hu rfl
  · rw [hone o' ho']
    simp only [OwnerOk, hothers c hco, hc]
    refine ⟨fun y hy => ?_, by rw [hspinc, hsec', hv], hclosed, hsecTail⟩
    exact (hlinked c y (List.mem_of_mem_head? hy)).mpr (hhead y hy)

/-- The lock goes to the first of the main queue. -/
theorem Inv.grantMain {v : Spin T} (h : Inv s) (ho : s.owner = some o) (hbusy : s.pc o ≠ .idle)
    (hfirst : First s c) (hclosed : SecClosed s) (hsecTail : SecTailOk s)
    (hv : v = secSpin s.sec) : Inv (s.grant o c v s.main.tail s.sec) := by
  obtain ⟨hhead, hc⟩ := hfirst
  -- the main queue without its first node
  obtain ⟨rest, hmain⟩ : ∃ rest, s.main = c :: rest := by
    cases hm : s.main with
    | nil =>
      rw [hm] at hhead
      cases hhead
    | cons z rest =>
      rw [hm] at hhead
      exact ⟨rest, by rw [Option.some.inj hhead]⟩
  have htl := h.tail o ho
  have hchain := h.mainLinked
  rw [hmain] at htl hchain
  rw [List.getLastD_cons] at htl
  rw [hmain, List.tail_cons]
  refine h.grant ho hbusy hc (by rw [hmain, List.cons_append]) (fun z p hp => ?_) htl hchain
    h.secLinked hclosed hsecTail hv
  -- whoever is still to store its link waits behind the new owner
  have hz := h.linking_main hp
  rw [hmain] at hz
  rcases List.mem_cons.mp hz with rfl | hz
  · rw [hc] at hp
    cases hp
  · exact hz

/-- The lock goes to the first of the secondary queue, and the main queue comes
behind it. -/
theorem inv_grantFlush (h : Inv s) (ho : s.owner = some o) (hcase : s.pc o = .grantFlush x) :
    Inv (s.grant o x .one (s.sec ++ s.main).tail []) := by
  have hok := h.ownerOk o ho
  simp only [OwnerOk, hcase] at hok
  obtain ⟨-, -, -, hx, y, n, hy, hlink, hn, hnspin⟩ := hok
  obtain ⟨rest, hsec⟩ : ∃ rest, s.sec = x :: rest := by
    cases hs : s.sec with
    | nil =>
      rw [hs] at hx
      cases hx
    | cons z rest =>
      rw [hs] at hx
      exact ⟨rest, by rw [Option.some.inj hx]⟩
  have hmainne : s.main ≠ [] := List.ne_nil_of_mem (List.mem_of_mem_head? hn)
  have hxs : x ∈ s.sec := List.mem_of_mem_head? hx
  -- both queues together are one chain
  have hchain : (s.sec ++ s.main).IsChain (Linked s) := by
    refine List.isChain_append.mpr ⟨?_, h.mainLinked, fun a ha b hb => ?_⟩
    · refine h.secLinked.imp_of_mem_imp fun a b _ hb hab => ?_
      unfold Linked
      rw [(h.inSec b hb).2]
      exact hab
    · obtain rfl := Option.some.inj (hy.symm.trans ha)
      obtain rfl := Option.some.inj (hn.symm.trans hb)
      unfold Linked
      rw [hnspin]
      exact hlink
  -- the last of both is the last of the main queue
  have hlastD : (rest ++ s.main).getLastD x = s.main.getLastD o := by
    rw [List.getLastD_eq_getLast?, List.getLastD_eq_getLast?,
      List.getLast?_append_of_ne_nil _ hmainne, List.getLast?_eq_some_getLast hmainne]
    rfl
  rw [hsec, List.cons_append] at hchain
  rw [hsec, List.cons_append, List.tail_cons]
  refine h.grant ho (by simp [hcase]) (h.inSec x hxs).2 ?_ (fun z p hp => ?_) ?_ hchain .nil
    (fun z hz => by cases hz) (fun z hz => by cases hz) rfl
  · rw [List.append_nil, hsec]
    have hperm : ((x :: rest) ++ s.main).Perm (s.main ++ (x :: rest)) := List.perm_append_comm
    exact hperm
  · exact List.mem_append_right rest (h.linking_main hp)
  · rw [hlastD]
    exact h.tail o ho

theorem Settled.spin_one (hok : Settled s o) (hnil : s.sec = []) : s.spin o = .one := by
  rw [hok.2.1, hnil]
  rfl

/-- The owner's `spin` leads to the head of the secondary queue. -/
theorem Settled.sec_head (hok : Settled s o) (hne : s.sec ≠ []) :
    ∃ x, s.sec.head? = some x ∧ s.spin o = .node x := by
  cases hsec : s.sec with
  | nil => exact absurd hsec hne
  | cons x l => exact ⟨x, rfl, by rw [hok.2.1, hsec]; rfl⟩

/-- The head's `secTail` leads to the last node of the secondary queue. -/
theorem Settled.sec_tail (hok : Settled s o) (hx : s.sec.head? = some x) :
    ∃ y, s.secTail x = some y := by
  have hne := List.ne_nil_of_mem (List.mem_of_mem_head? hx)
  exact ⟨_, (hok.2.2.2 x hx).trans (List.getLast?_eq_some_getLast hne)⟩

/-! ### The parts of `Release`

`Release` first asks whether its main queue is empty, then looks for a waiter of its
own socket, and then passes the lock on. -/

/-- The parts of `Acquire` and `Release`. -/
inductive Part where
  | outside
  | acquire
  /-- is there a waiter in the main queue, and if not, in the secondary one? -/
  | look
  /-- `find_successor`, which takes waiters of other sockets out -/
  | find
  /-- the successor is known, and gets the lock -/
  | pass

def Pc.part : Pc T → Part
  | .idle | .crashed => .outside
  | .clearNext | .clearSpin | .swapTail | .link _ | .spin | .setSpin => .acquire
  | .loadNext | .testOne | .casNull | .loadSec | .casSec _ | .grantSec _ | .awaitNext => .look
  | .keepLocal | .findNext | .walk _ _ _ | .testSplice _ _ _ | .loadSplice _ _ _
  | .appendSplice _ _ _ _ | .storeSplice _ _ _ | .cut _ _ _ | .setSecTail _ _ => .find
  | .passLoad _ | .passStore _ _ | .testSec | .loadSucc | .loadMain _ | .flush _ _ | .grantFlush _
  | .loadPlain | .grantPlain _ => .pass

theorem pc_goto (s : State T) (t : T) (pc : Pc T) : (s.goto t pc).pc t = pc :=
  Function.update_self ..

/-- Most accesses of the owner only read: the new position is all that changes. -/
theorem Inv.goto_owner {pc : Pc T} (h : Inv s) (ho : s.owner = some o) (hidle : s.pc o ≠ .idle)
    (heq : some (s.goto o pc) = some s') (hok : OwnerOk (s.goto o pc) o) : Inv s' :=
  Option.some.inj heq ▸ inv_goto h ho hidle hok

/-- The owner looks for waiters. -/
theorem inv_look {numa : Nat} {keep : Bool} (h : Inv s) (ho : s.owner = some o)
    (hpart : (s.pc o).part = .look) (hs : proceed s o numa keep (s.pc o) = some s') : Inv s' := by
  have hom := (h.apart o ho).1
  have hok := h.ownerOk o ho
  unfold OwnerOk at hok
  have hidle : s.pc o ≠ .idle := fun hi => by simp [hi, Pc.part] at hpart
  cases hcase : s.pc o with
  | loadNext =>
    simp only [hcase, proceed] at hs hok
    split at hs
    · refine h.goto_owner ho hidle hs ?_
      simp only [OwnerOk, pc_goto]
      exact hok.goto hom
    · rename_i hn
      refine h.goto_owner ho hidle hs ?_
      simp only [OwnerOk, pc_goto]
      exact ⟨hok.goto hom, hn⟩
  | testOne =>
    simp only [hcase, proceed] at hs hok
    -- `spin` is 1 exactly when the secondary queue is empty
    split at hs
    · rename_i hone
      refine h.goto_owner ho hidle hs ?_
      simp only [OwnerOk, pc_goto]
      refine ⟨hok.goto hom, secSpin_one.mp ?_⟩
      rw [← hone]
      exact hok.2.1.symm
    · rename_i hone
      refine h.goto_owner ho hidle hs ?_
      simp only [OwnerOk, pc_goto]
      refine ⟨hok.goto hom, fun hnil => hone ?_⟩
      rw [hok.2.1]
      exact secSpin_one.mpr hnil
  | casNull =>
    simp only [hcase, proceed] at hs hok
    split at hs
    · -- nobody is left: the lock is free
      rename_i htail
      obtain rfl := Option.some.inj hs
      exact inv_casNull h ho hcase htail
    · refine h.goto_owner ho hidle hs ?_
      simp only [OwnerOk, pc_goto]
      exact hok.1.goto hom
  | loadSec =>
    simp only [hcase, proceed] at hs hok
    -- the first of the secondary queue, which is not empty
    obtain ⟨x, hx⟩ := hok.1.sec_head hok.2
    simp only [hx.2] at hs
    refine h.goto_owner ho hidle hs ?_
    simp only [OwnerOk, pc_goto]
    exact ⟨hok.1.goto hom, hx.1⟩
  | casSec x =>
    simp only [hcase, proceed] at hs hok
    split at hs
    · -- the secondary queue has become the main one
      rename_i htail
      obtain rfl := Option.some.inj hs
      exact inv_casSec h ho hcase htail
    · refine h.goto_owner ho hidle hs ?_
      simp only [OwnerOk, pc_goto]
      exact hok.1.goto hom
  | grantSec x =>
    rw [hcase] at hs hok
    obtain rfl := Option.some.inj hs
    have hsec : s.sec = [] := hok.2
    -- with an empty secondary queue there is nothing else to keep
    refine h.grantMain ho hidle hok.1 (fun z hz => ?_) (fun z hz => ?_) (by rw [hsec]; rfl)
    · rw [hsec] at hz
      cases hz
    · rw [hsec] at hz
      cases hz
  | awaitNext =>
    simp only [hcase, proceed] at hs hok
    split at hs
    · -- the newcomer has not linked itself yet
      exact Option.some.inj hs ▸ h
    · rename_i hn
      refine h.goto_owner ho hidle hs ?_
      simp only [OwnerOk, pc_goto]
      exact ⟨hok.goto hom, hn⟩
  | _ => simp [hcase, Pc.part] at hpart

/-- The owner looks for a waiter of its socket. -/
theorem inv_find {numa : Nat} {keep : Bool} (h : Inv s) (ho : s.owner = some o)
    (hpart : (s.pc o).part = .find) (hs : proceed s o numa keep (s.pc o) = some s') : Inv s' := by
  have hom := (h.apart o ho).1
  have hok := h.ownerOk o ho
  unfold OwnerOk at hok
  have hidle : s.pc o ≠ .idle := fun hi => by simp [hi, Pc.part] at hpart
  cases hcase : s.pc o with
  | keepLocal =>
    simp only [hcase, proceed] at hs hok
    split at hs
    · refine h.goto_owner ho hidle hs ?_
      simp only [OwnerOk, pc_goto]
      exact ⟨hok.1.goto hom, hok.2⟩
    · refine h.goto_owner ho hidle hs ?_
      simp only [OwnerOk, pc_goto]
      exact ⟨hok.1.goto hom, hok.2⟩
  | findNext =>
    simp only [hcase, proceed] at hs hok
    obtain ⟨n, hn⟩ := Option.ne_none_iff_exists'.mp hok.2
    -- the next node is the first of the main queue
    obtain ⟨hroot, hspin, hclosed, hsecTail⟩ := hok.1
    have hfirst := h.next_first ho hroot hn
    simp only [hn] at hs
    generalize (if s.socket o = -1 then (numa : Int) else s.socket o) = mySocket at hs
    split at hs
    · -- it runs on the owner's socket: nothing to move
      refine h.goto_owner ho hidle hs ?_
      simp only [OwnerOk, pc_goto]
      exact ⟨hfirst.goto hom, hspin, hclosed, hsecTail⟩
    · refine h.goto_owner ho hidle hs ?_
      simp only [OwnerOk, pc_goto]
      exact ⟨hok.1.goto hom, hok.2, s.main.tail, hfirst.walked.goto hom⟩
  | walk a b k =>
    simp only [hcase, proceed] at hs hok
    obtain ⟨hsettled, hne, rest, hw⟩ := hok
    cases hn : s.next b with
    -- the walk has come to the end of the links
    | none =>
      simp only [hn] at hs
      refine h.goto_owner ho hidle hs ?_
      simp only [OwnerOk, pc_goto]
      exact ⟨hsettled.goto hom, hne⟩
    | some cur =>
      simp only [hn] at hs
      -- one node further, and still in the main queue
      obtain ⟨hcur, rest', rfl⟩ := h.walk_next ho hw hn
      split at hs
      · refine h.goto_owner ho hidle hs ?_
        simp only [OwnerOk, pc_goto]
        exact ⟨hsettled.goto hom, Found.goto ⟨hcur, rest', hw⟩ hom⟩
      · refine h.goto_owner ho hidle hs ?_
        simp only [OwnerOk, pc_goto]
        exact ⟨hsettled.goto hom, hne, rest', (hw.concat hcur).goto hom⟩
  | testSplice a b cur =>
    simp only [hcase, proceed] at hs hok
    cases hsec : s.sec with
    | nil =>
      simp only [hok.1.spin_one hsec] at hs
      refine h.goto_owner ho hidle hs ?_
      simp only [OwnerOk, pc_goto]
      exact ⟨hok.1.goto hom, hok.2.goto hom, hsec⟩
    | cons x l =>
      -- `spin` points to the head of the secondary queue
      have hx : s.spin o = .node x := by rw [hok.1.2.1, hsec]; rfl
      simp only [hx] at hs
      refine h.goto_owner ho hidle hs ?_
      simp only [OwnerOk, pc_goto]
      refine ⟨hok.1.goto hom, hok.2.goto hom, ?_⟩
      show s.sec ≠ []
      rw [hsec]
      simp
  | loadSplice a b cur =>
    simp only [hcase, proceed] at hs hok
    obtain ⟨x, hx⟩ := hok.1.sec_head hok.2.2
    simp only [hx.2] at hs
    refine h.goto_owner ho hidle hs ?_
    simp only [OwnerOk, pc_goto]
    exact ⟨hok.1.goto hom, hok.2.1.goto hom, hx.1⟩
  | appendSplice a b cur x =>
    simp only [hcase, proceed] at hs hok
    -- the head knows the tail, so that the moved part can be appended
    obtain ⟨y, hy⟩ := hok.1.sec_tail hok.2.2
    simp only [hy] at hs
    obtain rfl := Option.some.inj hs
    exact inv_appendSplice h ho hcase hy
  | storeSplice a b cur =>
    rw [hcase] at hs
    obtain rfl := Option.some.inj hs
    exact inv_storeSplice h ho hcase
  | cut a b cur =>
    rw [hcase] at hs
    obtain rfl := Option.some.inj hs
    exact inv_cut h ho hcase
  | setSecTail b cur =>
    simp only [hcase, proceed] at hs hok
    -- after the splice the secondary queue is not empty
    obtain ⟨x, hx⟩ : ∃ x, s.spin o = .node x := by
      cases hsec : s.sec with
      | nil =>
        rw [hsec] at hok
        cases hok.2.2.2
      | cons x l => exact ⟨x, by rw [hok.2.1, hsec]; rfl⟩
    simp only [hx] at hs
    obtain rfl := Option.some.inj hs
    exact inv_setSecTail h ho hcase hx
  | _ => simp [hcase, Pc.part] at hpart

/-- The owner passes the lock on. -/
theorem inv_pass {numa : Nat} {keep : Bool} (h : Inv s) (ho : s.owner = some o)
    (hpart : (s.pc o).part = .pass) (hs : proceed s o numa keep (s.pc o) = some s') : Inv s' := by
  have hom := (h.apart o ho).1
  have hok := h.ownerOk o ho
  unfold OwnerOk at hok
  have hidle : s.pc o ≠ .idle := fun hi => by simp [hi, Pc.part] at hpart
  cases hcase : s.pc o with
  | passLoad succ =>
    simp only [hcase, proceed] at hs hok
    refine h.goto_owner ho hidle hs ?_
    simp only [OwnerOk, pc_goto]
    -- the value that is read is the one that the successor will get
    exact ⟨hok.1.goto hom, hok.2.1, hok.2.1, hok.2.2⟩
  | passStore succ v =>
    rw [hcase] at hs hok
    obtain rfl := Option.some.inj hs
    exact h.grantMain ho hidle hok.1 hok.2.2.2.1 hok.2.2.2.2 hok.2.1
  | testSec =>
    simp only [hcase, proceed] at hs hok
    -- an empty secondary queue leaves the lock to the main one
    cases hsec : s.sec with
    | nil =>
      simp only [hok.1.spin_one hsec] at hs
      refine h.goto_owner ho hidle hs ?_
      simp only [OwnerOk, pc_goto]
      exact ⟨hok.1.goto hom, hok.2, hsec⟩
    | cons x l =>
      have hx : s.spin o = .node x := by rw [hok.1.2.1, hsec]; rfl
      simp only [hx] at hs
      refine h.goto_owner ho hidle hs ?_
      simp only [OwnerOk, pc_goto]
      refine ⟨hok.1.goto hom, hok.2, ?_⟩
      show s.sec ≠ []
      rw [hsec]
      simp
  | loadSucc =>
    simp only [hcase, proceed] at hs hok
    obtain ⟨x, hx⟩ := hok.1.sec_head hok.2.2
    simp only [hx.2] at hs
    refine h.goto_owner ho hidle hs ?_
    simp only [OwnerOk, pc_goto]
    exact ⟨hok.1.goto hom, hok.2.1, hx.1⟩
  | loadMain x =>
    simp only [hcase, proceed] at hs hok
    refine h.goto_owner ho hidle hs ?_
    simp only [OwnerOk, pc_goto]
    exact ⟨hok.1.goto hom, hok.2.2, rfl, hok.2.1⟩
  | flush x n =>
    simp only [hcase, proceed] at hs hok
    -- the main queue is put behind the tail of the secondary one
    obtain ⟨y, hy⟩ := hok.1.sec_tail hok.2.1
    simp only [hy] at hs
    obtain rfl := Option.some.inj hs
    exact inv_flush h ho hcase hy
  | grantFlush x =>
    rw [hcase] at hs
    obtain rfl := Option.some.inj hs
    exact inv_grantFlush h ho hcase
  | loadPlain =>
    simp only [hcase, proceed] at hs hok
    -- the link was there when the owner looked, and only the owner changes it
    obtain ⟨n, hn⟩ := Option.ne_none_iff_exists'.mp hok.2.1
    simp only [hn] at hs
    refine h.goto_owner ho hidle hs ?_
    simp only [OwnerOk, pc_goto]
    exact ⟨hok.1.goto hom, hn, hok.2.2⟩
  | grantPlain n =>
    rw [hcase] at hs hok
    obtain rfl := Option.some.inj hs
    obtain ⟨⟨hroot, -, hclosed, hsecTail⟩, hn, hsec⟩ := hok
    exact h.grantMain ho hidle (h.next_first ho hroot hn) hclosed hsecTail (by rw [hsec]; rfl)
  | _ => simp [hcase, Pc.part] at hpart

/-- The steps of the owner. -/
theorem inv_ownerProceed {numa : Nat} {keep : Bool} (h : Inv s) (ho : s.owner = some o)
    (hidle : s.pc o ≠ .idle) (hspinning : s.pc o ≠ .spin)
    (hs : proceed s o numa keep (s.pc o) = some s') : Inv s' := by
  cases hcase : s.pc o with
  | idle => exact absurd hcase hidle
  | spin => exact absurd hcase hspinning
  | clearNext | clearSpin | swapTail | link p | crashed =>
    -- a thread there is not the owner
    have hok := h.ownerOk o ho
    rw [OwnerOk, hcase] at hok
    exact hok.elim
  | setSpin =>
    rw [hcase] at hs
    obtain rfl := Option.some.inj hs
    exact inv_setSpin h ho hcase
  | loadNext | testOne | casNull | loadSec | casSec | grantSec | awaitNext =>
    exact inv_look h ho (by rw [hcase]; rfl) hs
  | keepLocal | findNext | walk | testSplice | loadSplice | appendSplice | storeSplice | cut |
  setSecTail =>
    exact inv_find h ho (by rw [hcase]; rfl) hs
  | passLoad | passStore | testSec | loadSucc | loadMain | flush | grantFlush | loadPlain |
  grantPlain =>
    exact inv_pass h ho (by rw [hcase]; rfl) hs

/-! ### Runs -/

/-- Whoever is in `Release` is the owner. -/
theorem Inv.owner_of_release (h : Inv s) (hlink : ∀ p, s.pc t ≠ .link p) (hspin : s.pc t ≠ .spin)
    (hidle : s.pc t ≠ .idle) (hnext : s.pc t ≠ .clearNext) (hclear : s.pc t ≠ .clearSpin)
    (htail : s.pc t ≠ .swapTail) : s.owner = some t := by
  refine h.owner_of_inside (fun hout => ?_) (fun hm => ?_) fun hs => hspin (h.inSec t hs).2
  · unfold OutsideOk at hout
    split at hout <;> simp_all
  · rcases (h.inMain t hm).2 with hpc | ⟨p, hp⟩
    · exact hspin hpc
    · exact hlink p hp

theorem inv_proceed {numa : Nat} {keep : Bool} (h : Inv s)
    (hs : proceed s t numa keep (s.pc t) = some s') : Inv s' := by
  cases hcase : s.pc t with
  | idle =>
    rw [hcase] at hs
    cases hs
  | clearNext =>
    rw [hcase] at hs
    obtain rfl := Option.some.inj hs
    exact inv_clearNext h hcase
  | clearSpin =>
    rw [hcase] at hs
    obtain rfl := Option.some.inj hs
    exact inv_clearSpin h hcase
  | swapTail =>
    simp only [hcase, proceed] at hs
    cases htail : s.tail with
    | none =>
      rw [htail] at hs
      obtain rfl := Option.some.inj hs
      exact inv_swapTail_free h hcase htail
    | some tailNode =>
      rw [htail] at hs
      obtain rfl := Option.some.inj hs
      exact inv_swapTail_wait h hcase htail
  | link p =>
    rw [hcase] at hs
    obtain rfl := Option.some.inj hs
    exact inv_link h hcase
  | spin =>
    simp only [hcase, proceed] at hs
    split at hs
    · exact Option.some.inj hs ▸ h
    · rename_i hspin
      obtain rfl := Option.some.inj hs
      exact inv_enter h hcase hspin
  | crashed =>
    rw [hcase] at hs
    cases hs
  | _ =>
    -- all other accesses are in the owner's `Release`
    have ho : s.owner = some t := by apply h.owner_of_release <;> simp [hcase]
    exact inv_ownerProceed h ho (by simp [hcase]) (by simp [hcase]) hs

theorem reachable_inv (h : Reachable step (init : State T) s) : Inv s := by
  refine h.invariant (fun _ => inv_init) fun s a s' hI _ _ hs => ?_
  cases a with
  | acquire t =>
    simp only [step] at hs
    split at hs
    · rename_i hcond
      obtain rfl := Option.some.inj hs
      exact inv_acquire hI hcond.1 hcond.2
    · cases hs
  | release t =>
    simp only [step] at hs
    split at hs
    · rename_i hcond
      obtain rfl := Option.some.inj hs
      exact inv_release hI hcond.1 hcond.2
    · cases hs
  | advance t numa keep => exact inv_proceed hI hs

end LockShield.Cna
