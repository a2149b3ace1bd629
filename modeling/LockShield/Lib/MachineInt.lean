import Mathlib.Algebra.Ring.Int.Defs
import Mathlib.Algebra.Ring.Nat
import Mathlib.Tactic.Common

/-!
# Two's-complement integers

A signed machine word of `w` bits is the integer it denotes, kept in range by
`wrap w`. Conversions between widths and the increments of a counter are
`wrap` applied to the mathematical result. An `unsigned` is kept in range by
`uint32` in the same way.

## Results

* `int32_of_range`, `int64_of_range` — a value in range is kept as it is.
* `wrap_add`, `wrap_sub`             — wrapping once at the end is enough.
* `int32_int64`                      — narrowing a wrapped `long` narrows the value.
* `int32_inj`                        — an `int` tells apart what is less than `2 ^ 32` apart.
* `uint32_of_lt`, `uint32_pred`      — the same for `unsigned`, and its decrement.
-/

namespace LockShield.Lib

/-- The value a `w`-bit two's-complement word stores for `x`. -/
def wrap (w : Nat) (x : Int) : Int := x.bmod (2 ^ w)

/-- Storing into a C `int`. -/
abbrev int32 (x : Int) : Int := wrap 32 x

/-- Storing into an LP64 `long`. -/
abbrev int64 (x : Int) : Int := wrap 64 x

/-- Storing into a C `unsigned`. -/
def uint32 (n : Nat) : Nat := n % 2 ^ 32

theorem int32_of_range {x : Int} (hlo : -2 ^ 31 ≤ x) (hhi : x < 2 ^ 31) : int32 x = x := by
  simp only [int32, wrap, Int.bmod]
  omega

theorem int64_of_range {x : Int} (hlo : -2 ^ 63 ≤ x) (hhi : x < 2 ^ 63) : int64 x = x := by
  simp only [int64, wrap, Int.bmod]
  omega

theorem int32_lt (x : Int) : int32 x < 2 ^ 31 := by
  simp only [int32, wrap, Int.bmod]
  omega

/-- Wrapping the intermediate result of a sum changes nothing. -/
theorem wrap_add (w : Nat) (x y : Int) : wrap w (wrap w x + y) = wrap w (x + y) :=
  Int.bmod_add_bmod

theorem wrap_sub (w : Nat) (x y : Int) : wrap w (wrap w x - y) = wrap w (x - y) :=
  Int.bmod_sub_bmod

/-- Narrowing a wrapped `long` to `int` only looks at the value modulo `2^32`. -/
theorem int32_int64 (x : Int) : int32 (int64 x) = int32 x := by
  simp only [int32, int64, wrap, Int.bmod]
  omega

theorem int32_eq_zero_iff (x : Int) : int32 x = 0 ↔ x % 2 ^ 32 = 0 := by
  simp only [int32, wrap, Int.bmod]
  omega

/-- Numbers less than `2^32` apart are told apart by an `int`. -/
theorem int32_inj {a b : Nat} (hab : a < b + 2 ^ 32) (hba : b < a + 2 ^ 32)
    (h : int32 a = int32 b) : a = b := by
  simp only [int32, wrap, Int.bmod] at h
  omega

theorem uint32_of_lt {n : Nat} (h : n < 2 ^ 32) : uint32 n = n := Nat.mod_eq_of_lt h

/-- Counting up in an `unsigned`. -/
@[simp] theorem uint32_add (m n : Nat) : uint32 (uint32 m + n) = uint32 (m + n) :=
  Nat.mod_add_mod m (2 ^ 32) n

/-- Counting down in an `unsigned`. -/
theorem uint32_pred {n : Nat} (h : 0 < n) : uint32 (uint32 n + (2 ^ 32 - 1)) = uint32 (n - 1) := by
  simp only [uint32]
  omega

end LockShield.Lib
