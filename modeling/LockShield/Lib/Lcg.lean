import Mathlib.Algebra.Ring.GeomSum
import Mathlib.Algebra.Ring.Int.Parity
import Mathlib.Data.Fintype.EquivFin
import Mathlib.Data.Int.ModEq
import Mathlib.Order.Lattice.Nat
import Mathlib.RingTheory.Coprime.Lemmas
import Mathlib.Tactic.Positivity
import Mathlib.Tactic.Ring

/-!
# Congruential generators

`x ↦ a * x + c`, read modulo a power of two. When `a` leaves 1 modulo 4 and `c`
is odd, the low `k` bits run through all their `2 ^ k` values in one cycle,
wherever they start: the difference of two members of the sequence is an odd
number times a geometric sum of `a`, and such a sum has the factors two of its
length.

`firstHit` counts the steps to the next value that has a property. It goes down
by one with each value that has not, which makes it a measure of how often a
caller can still be told no.

## Results

* `two_pow_dvd_geomSum`   — the factors two of a geometric sum.
* `lcg_iterate_modEq`     — the low `k` bits come back after multiples of `2 ^ k` steps only.
* `lcg_hits`              — so every value of the low bits comes up within one cycle.
* `Recurs.firstHit_le`    — the bound on `firstHit` for a property that recurs.
* `Recurs.firstHit_step`  — a value without the property brings the next hit nearer.
-/

namespace LockShield.Lib

open Finset

/-- One step of the generator, before it is reduced. -/
def lcg (a c x : Int) : Int := a * x + c

variable {a c x : Int} {k m n : Nat}

/-- The map respects congruence, so that the generator can be followed modulo a power of two. -/
theorem lcg_modEq {y d : Int} (h : x ≡ y [ZMOD d]) : lcg a c x ≡ lcg a c y [ZMOD d] :=
  (h.mul_left a).add_right c

/-! ## Geometric sums -/

/-- An odd factor takes no power of two. -/
theorem two_pow_dvd_mul_odd (y q : Int) : (2 : Int) ^ k ∣ y * (2 * q + 1) ↔ 2 ^ k ∣ y := by
  have hodd : IsCoprime ((2 : Int) ^ k) (2 * q + 1) := IsCoprime.pow_left ⟨-q, 1, by ring⟩
  exact ⟨fun h => hodd.dvd_of_dvd_mul_right h, fun h => h.mul_right _⟩

/-- The geometric sum of twice as many terms. -/
theorem geomSum_double (a : Int) (m : Nat) :
    ∑ i ∈ range (2 * m), a ^ i = (∑ i ∈ range m, a ^ i) * (a ^ m + 1) := by
  have hupper : ∑ i ∈ range m, a ^ (m + i) = (∑ i ∈ range m, a ^ i) * a ^ m := by
    rw [sum_mul]
    exact sum_congr rfl fun i _ => by ring
  rw [two_mul, sum_range_add, hupper]
  ring

/-- A sum of that many powers of `a` has the factors two of their number. -/
theorem two_pow_dvd_geomSum (ha : a % 4 = 1) :
    (2 : Int) ^ k ∣ ∑ i ∈ range n, a ^ i ↔ 2 ^ k ∣ n := by
  induction k generalizing n with
  | zero => simp
  | succ k ih =>
    -- one more than a power of `a` is twice an odd number
    have hpow : ∀ m, ∃ q, a ^ m + 1 = 2 * (2 * q + 1) := by
      intro m
      have hmod : a ^ m % 4 = 1 := by
        have hone : a ≡ 1 [ZMOD 4] := ha
        simpa [Int.ModEq] using hone.pow m
      exact ⟨a ^ m / 4, by omega⟩
    obtain ⟨m, rfl | rfl⟩ := Nat.even_or_odd' n
    · obtain ⟨q, hq⟩ := hpow m
      have hsplit : (∑ i ∈ range m, a ^ i) * (a ^ m + 1) =
          2 * ((∑ i ∈ range m, a ^ i) * (2 * q + 1)) := by
        rw [hq]
        ring
      rw [geomSum_double, hsplit, pow_succ', pow_succ', Int.mul_dvd_mul_iff_left (by omega),
        Nat.mul_dvd_mul_iff_left (by omega), two_pow_dvd_mul_odd, ih]
    · -- an odd number of terms, and an odd sum
      obtain ⟨q, hq⟩ := hpow m
      have hsum : ∑ i ∈ range (2 * m + 1), a ^ i =
          2 * (a * ((∑ i ∈ range m, a ^ i) * (2 * q + 1))) + 1 := by
        rw [geom_sum_succ, geomSum_double, hq]
        ring
      refine iff_of_false (fun hdvd => ?_) fun hdvd => ?_
      · have h2 : (2 : Int) ∣ ∑ i ∈ range (2 * m + 1), a ^ i :=
          (dvd_pow_self 2 (Nat.succ_ne_zero k)).trans hdvd
        rw [hsum] at h2
        omega
      · have h2 : 2 ∣ 2 * m + 1 := (dvd_pow_self 2 (Nat.succ_ne_zero k)).trans hdvd
        omega

/-! ## One cycle -/

/-- What the generator has added after `n` rounds. -/
theorem lcg_iterate_sub (n : Nat) :
    (lcg a c)^[n] x - x = (lcg a c x - x) * ∑ i ∈ range n, a ^ i := by
  induction n with
  | zero => simp
  | succ n ih =>
    have hstep : (lcg a c)^[n + 1] x = a * (lcg a c)^[n] x + c :=
      Function.iterate_succ_apply' ..
    have hn : (lcg a c)^[n] x = x + (lcg a c x - x) * ∑ i ∈ range n, a ^ i := by
      rw [← ih]
      ring
    rw [hstep, hn, geom_sum_succ]
    simp only [lcg]
    ring

/-- The low bits come back after multiples of `2 ^ k` steps only. -/
theorem lcg_iterate_modEq (ha : a % 4 = 1) (hc : c % 2 = 1) :
    (lcg a c)^[n] x ≡ x [ZMOD 2 ^ k] ↔ 2 ^ k ∣ n := by
  have hstep : ∃ q, lcg a c x - x = 2 * q + 1 := by
    refine ⟨2 * (a / 4) * x + c / 2, ?_⟩
    have ha' : a = 4 * (a / 4) + 1 := by omega
    have hc' : c = 2 * (c / 2) + 1 := by omega
    generalize a / 4 = p at ha' ⊢
    generalize c / 2 = r at hc' ⊢
    subst ha' hc'
    simp only [lcg]
    ring
  obtain ⟨q, hq⟩ := hstep
  rw [Int.modEq_comm, Int.modEq_iff_dvd, lcg_iterate_sub, hq, mul_comm, two_pow_dvd_mul_odd,
    two_pow_dvd_geomSum ha]

/-- No value comes back before `2 ^ k` rounds. -/
theorem lcg_iterate_inj (ha : a % 4 = 1) (hc : c % 2 = 1) (hmn : m ≤ n) (hn : n < 2 ^ k)
    (heq : (lcg a c)^[m] x ≡ (lcg a c)^[n] x [ZMOD 2 ^ k]) : m = n := by
  obtain ⟨d, rfl⟩ := Nat.exists_eq_add_of_le' hmn
  rw [Function.iterate_add_apply] at heq
  have hdvd := (lcg_iterate_modEq ha hc).mp heq.symm
  have hd : d = 0 := Nat.eq_zero_of_dvd_of_lt hdvd (by omega)
  omega

/-- Every value of the low `k` bits is met within `2 ^ k` steps. -/
theorem lcg_hits (ha : a % 4 = 1) (hc : c % 2 = 1) (k : Nat) (x y : Int) :
    ∃ n < 2 ^ k, (lcg a c)^[n] x ≡ y [ZMOD 2 ^ k] := by
  have hpos : (0 : Int) < 2 ^ k := by positivity
  have hlt : ∀ z : Int, (z % 2 ^ k).toNat < 2 ^ k := by
    intro z
    have h0 := Int.emod_nonneg z hpos.ne'
    have h1 := Int.emod_lt_of_pos z hpos
    have hcast : ((2 ^ k : Nat) : Int) = 2 ^ k := by push_cast; rfl
    omega
  -- as many values as steps, and no value twice
  let value : Fin (2 ^ k) → Fin (2 ^ k) := fun n =>
    ⟨((lcg a c)^[n] x % 2 ^ k).toNat, hlt _⟩
  have hmod : ∀ {z w : Int}, (z % 2 ^ k).toNat = (w % 2 ^ k).toNat → z ≡ w [ZMOD 2 ^ k] := by
    intro z w h
    have hz := Int.emod_nonneg z hpos.ne'
    have hw := Int.emod_nonneg w hpos.ne'
    show z % 2 ^ k = w % 2 ^ k
    omega
  have hinj : Function.Injective value := by
    intro m n hmn
    have heq := hmod (Fin.val_eq_of_eq hmn)
    rcases Nat.le_total m n with hle | hle
    · exact Fin.ext (lcg_iterate_inj ha hc hle n.isLt heq)
    · exact Fin.ext (lcg_iterate_inj ha hc hle m.isLt heq.symm).symm
  obtain ⟨n, hn⟩ := Finite.surjective_of_injective hinj ⟨(y % 2 ^ k).toNat, hlt y⟩
  exact ⟨n, n.isLt, hmod (Fin.val_eq_of_eq hn)⟩

/-! ## The next hit -/

section Hits

variable {α : Type} {f : α → α} {P : α → Prop} {b : Nat} {s : α}

/-- The number of steps after which the property holds next. -/
noncomputable def firstHit (f : α → α) (P : α → Prop) (s : α) : Nat :=
  sInf {n | 0 < n ∧ P (f^[n] s)}

/-- The first hit is not behind another. -/
theorem firstHit_le (hn : 0 < n) (h : P (f^[n] s)) : firstHit f P s ≤ n := Nat.sInf_le ⟨hn, h⟩

/-- The property holds at least once in any `b` steps. -/
def Recurs (f : α → α) (P : α → Prop) (b : Nat) : Prop := ∀ s, ∃ n < b, P (f^[n] s)

/-- Where hits recur within `b` rounds, the next is within `b` rounds. -/
theorem Recurs.firstHit_le (h : Recurs f P b) : firstHit f P s ≤ b := by
  obtain ⟨n, hn, hP⟩ := h (f s)
  exact (Lib.firstHit_le (Nat.succ_pos n) hP).trans hn

/-- From a value without the property it is sooner. -/
theorem Recurs.firstHit_lt (h : Recurs f P b) (hs : ¬ P s) : firstHit f P s < b := by
  obtain ⟨n, hn, hP⟩ := h s
  have hpos : 0 < n := by
    by_contra h0
    obtain rfl : n = 0 := by omega
    exact hs hP
  exact (Lib.firstHit_le hpos hP).trans_lt hn

/-- The next hit lies ahead, and is one. -/
theorem Recurs.firstHit_mem (h : Recurs f P b) :
    0 < firstHit f P s ∧ P (f^[firstHit f P s] s) := by
  obtain ⟨n, -, hP⟩ := h (f s)
  exact Nat.sInf_mem (s := {n | 0 < n ∧ P (f^[n] s)}) ⟨n + 1, Nat.succ_pos n, hP⟩

/-- A step to a value without the property comes closer to the next one with it. -/
theorem Recurs.firstHit_step (h : Recurs f P b) (hs : ¬ P (f s)) :
    firstHit f P (f s) + 1 ≤ firstHit f P s := by
  obtain ⟨hpos, hP⟩ := h.firstHit_mem (s := s)
  obtain ⟨n, hn⟩ := Nat.exists_eq_succ_of_ne_zero hpos.ne'
  rw [hn] at hP ⊢
  have hpos' : 0 < n := by
    by_contra h0
    obtain rfl : n = 0 := by omega
    exact hs hP
  exact Nat.succ_le_succ (Lib.firstHit_le hpos' hP)

end Hits

end LockShield.Lib
