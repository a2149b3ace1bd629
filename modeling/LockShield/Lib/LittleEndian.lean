import LockShield.Lib.MachineInt
import Mathlib.Tactic.Ring

/-!
# Integers in memory

A C integer of `w` bytes is stored least significant byte first. `ofBytes` reads
a run of bytes, `toBytes` writes one, and `loadSigned` is the signed value that
the bytes stand for. Bytes that are read at two widths agree when the upper ones
are zero.

## Results

* `ofBytes_toBytes`      — what was written is read back, modulo the width.
* `ofBytes_append`       — a word is its lower part and its upper part.
* `ofBytes_eq_zero_iff`  — a word is zero when its bytes are.
* `ofBytes_inj`          — runs of one length that stand for one number are equal.
-/

namespace LockShield.Lib

/-- The `w` bytes that store `x`. -/
def toBytes : Nat → Int → List UInt8
  | 0, _ => []
  | w + 1, x => UInt8.ofNat (x % 256).toNat :: toBytes w (x / 256)

/-- The unsigned number in a run of bytes. -/
def ofBytes : List UInt8 → Nat
  | [] => 0
  | b :: bs => b.toNat + 256 * ofBytes bs

/-- The signed number in a run of bytes. -/
def loadSigned (bs : List UInt8) : Int := wrap (8 * bs.length) (ofBytes bs)

@[simp] theorem length_toBytes (w : Nat) (x : Int) : (toBytes w x).length = w := by
  induction w generalizing x with
  | zero => rfl
  | succ w ih => simp [toBytes, ih]

/-- The lowest digit and the rest. -/
theorem emod_mul (x : Int) {a : Int} (ha : 0 ≤ a) (m : Int) :
    x % (a * m) = x % a + a * (x / a % m) := by
  rw [Int.emod_def x (a * m), Int.emod_def x a, Int.emod_def (x / a) m, Int.ediv_ediv_of_nonneg ha]
  ring

/-- Writing and reading back reduces modulo the width. -/
theorem ofBytes_toBytes (w : Nat) (x : Int) : (ofBytes (toBytes w x) : Int) = x % 256 ^ w := by
  induction w generalizing x with
  | zero => simp [toBytes, ofBytes]
  | succ w ih =>
    have hbyte : (UInt8.ofNat (x % 256).toNat).toNat = (x % 256).toNat := by
      rw [UInt8.toNat_ofNat']
      omega
    have hnonneg : ((x % 256).toNat : Int) = x % 256 := by omega
    rw [toBytes, ofBytes, hbyte, Nat.cast_add, Nat.cast_mul, ih, hnonneg, pow_succ',
      emod_mul x (by decide)]
    rfl

/-- The later bytes count higher. -/
theorem ofBytes_append (bs cs : List UInt8) :
    ofBytes (bs ++ cs) = ofBytes bs + 256 ^ bs.length * ofBytes cs := by
  induction bs with
  | nil => simp [ofBytes]
  | cons b bs ih =>
    rw [List.cons_append, ofBytes, ofBytes, ih, List.length_cons, pow_succ]
    ring

/-- What the bytes can hold. -/
theorem ofBytes_lt (bs : List UInt8) : ofBytes bs < 256 ^ bs.length := by
  induction bs with
  | nil => exact Nat.one_pos
  | cons b bs ih =>
    have hb : b.toNat < 256 := b.toNat_lt
    rw [ofBytes, List.length_cons, pow_succ]
    omega

/-- Zero has no other form than zero bytes. -/
theorem ofBytes_eq_zero_iff {bs : List UInt8} : ofBytes bs = 0 ↔ ∀ b ∈ bs, b = 0 := by
  induction bs with
  | nil => simp [ofBytes]
  | cons b bs ih =>
    have hb : b.toNat = 0 ↔ b = 0 := by
      rw [← UInt8.toNat_inj]
      rfl
    rw [ofBytes, List.forall_mem_cons, ← ih, ← hb]
    omega

/-- Runs of one length that store one number are equal. -/
theorem ofBytes_inj {bs cs : List UInt8} (hlen : bs.length = cs.length)
    (h : ofBytes bs = ofBytes cs) : bs = cs := by
  induction bs generalizing cs with
  | nil => exact (List.length_eq_zero_iff.mp hlen.symm).symm
  | cons b bs ih =>
    obtain ⟨c, cs, rfl⟩ := List.exists_cons_of_length_eq_add_one hlen.symm
    have hb : b.toNat < 256 := b.toNat_lt
    have hc : c.toNat < 256 := c.toNat_lt
    rw [ofBytes, ofBytes] at h
    rw [UInt8.toNat_inj.mp (show b.toNat = c.toNat by omega),
      ih (Nat.succ.inj hlen) (by omega)]

end LockShield.Lib
