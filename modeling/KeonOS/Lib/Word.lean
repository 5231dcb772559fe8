import Mathlib.Tactic

/-!
# Unsigned 64-bit words as natural numbers

A word is a natural number below `2 ^ 64`; the operations wrap as the machine's do.

* `add64`, `sub64`: wrapping addition and subtraction, with the cases in which they are exact;
* `alignDown k x`: the bit operation `x & ~(k - 1)` for a power of two `k`;
* `alignUp64 k x`: the usual `(x + k - 1) & ~(k - 1)`, which wraps near the top of the range, and
  `alignUp k x`, which does not.
-/

namespace Word

def add64 (a b : ℕ) : ℕ := (a + b) % 2 ^ 64

def sub64 (a b : ℕ) : ℕ := if b ≤ a then a - b else 2 ^ 64 + a - b

/-- `x & ~(k - 1)`, for `k` a power of two. -/
def alignDown (k x : ℕ) : ℕ := x / k * k

/-- `(x + k - 1) & ~(k - 1)`, for `k` a power of two. -/
def alignUp64 (k x : ℕ) : ℕ := alignDown k (add64 x (k - 1))

/-- The least multiple of `k` that is at least `x`, computed without wrapping. -/
def alignUp (k x : ℕ) : ℕ := alignDown k (x + (k - 1))

theorem add64_of_lt {a b : ℕ} (h : a + b < 2 ^ 64) : add64 a b = a + b := by
  rw [add64, Nat.mod_eq_of_lt h]

theorem sub64_of_le {a b : ℕ} (h : b ≤ a) : sub64 a b = a - b := if_pos h

theorem alignDown_le (k x : ℕ) : alignDown k x ≤ x := Nat.div_mul_le_self x k

theorem alignDown_add_mod (k x : ℕ) : alignDown k x + x % k = x := by
  rw [alignDown, Nat.mul_comm]
  exact Nat.div_add_mod x k

theorem alignDown_of_mod {k x : ℕ} (h : x % k = 0) : alignDown k x = x := by
  have := alignDown_add_mod k x
  omega

theorem alignUp64_of_lt {k x : ℕ} (h : x + (k - 1) < 2 ^ 64) : alignUp64 k x = alignUp k x := by
  rw [alignUp64, alignUp, add64_of_lt h]

theorem le_alignUp {k : ℕ} (hk : 0 < k) (x : ℕ) : x ≤ alignUp k x := by
  have h := alignDown_add_mod k (x + (k - 1))
  have hm := Nat.mod_lt (x + (k - 1)) hk
  rw [alignUp]
  omega

end Word
