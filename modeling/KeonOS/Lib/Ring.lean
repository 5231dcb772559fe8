import Mathlib.Data.Nat.ModEq
import Mathlib.Logic.Function.Basic
import Mathlib.Tactic.SplitIfs

/-!
# Ring buffers with two positions

A buffer of `N` cells with a read and a write position, both counted modulo `N`. The writer does not
look at the read position, so the buffer holds at most `N - 1` elements: the `N`-th makes the two
positions equal.

* **`ringContents_store`**, **`ringContents_take`**: a store appends, a take removes the oldest.
-/

namespace KeonOS

variable {α : Type*} {N r w : ℕ}

/-- The number of elements from `r` up to `w`, going round. -/
def ringLength (N r w : ℕ) : ℕ := (w + N - r) % N

/-- The elements from `r` up to `w`, going round. -/
def ringContents (N : ℕ) (buffer : ℕ → α) (r w : ℕ) : List α :=
  (List.range (ringLength N r w)).map fun i => buffer ((r + i) % N)

theorem mod_of_lt_two_mul {a : ℕ} (ha : a < 2 * N) : a % N = if a < N then a else a - N := by
  split_ifs with h
  · exact Nat.mod_eq_of_lt h
  · rw [Nat.mod_eq_sub_mod (by omega), Nat.mod_eq_of_lt (by omega)]

theorem ringLength_eq (hr : r < N) (hw : w < N) :
    ringLength N r w = if r ≤ w then w - r else w + N - r := by
  unfold ringLength
  rw [mod_of_lt_two_mul (by omega)]
  split_ifs <;> omega

theorem succ_mod (hw : w < N) : (w + 1) % N = if w + 1 < N then w + 1 else 0 := by
  rw [mod_of_lt_two_mul (by omega)]
  split_ifs <;> omega

@[simp] theorem ringContents_length (buffer : ℕ → α) :
    (ringContents N buffer r w).length = ringLength N r w := by
  simp [ringContents]

theorem ringLength_pos (hr : r < N) (hw : w < N) : 0 < ringLength N r w ↔ r ≠ w := by
  rw [ringLength_eq hr hw]
  split_ifs <;> omega

theorem ringLength_succ (hr : r < N) (hw : w < N) (hlen : ringLength N r w + 1 < N) :
    ringLength N r ((w + 1) % N) = ringLength N r w + 1 := by
  have hw' : (w + 1) % N < N := Nat.mod_lt _ (by omega)
  rw [ringLength_eq hr hw] at hlen ⊢
  rw [ringLength_eq hr hw', succ_mod hw]
  split_ifs at hlen ⊢ <;> omega

theorem ringLength_full (hr : r < N) (hw : w < N) (hlen : ringLength N r w + 1 = N) :
    ringLength N r ((w + 1) % N) = 0 := by
  have hw' : (w + 1) % N < N := Nat.mod_lt _ (by omega)
  rw [ringLength_eq hr hw] at hlen
  rw [ringLength_eq hr hw', succ_mod hw]
  split_ifs at hlen ⊢ <;> omega

theorem ringContents_store (hr : r < N) (hw : w < N) (hlen : ringLength N r w + 1 < N)
    (buffer : ℕ → α) (x : α) :
    ringContents N (Function.update buffer w x) r ((w + 1) % N) =
      ringContents N buffer r w ++ [x] := by
  have hlen' := ringLength_eq hr hw
  have hlast : (r + ringLength N r w) % N = w := by
    rw [mod_of_lt_two_mul (by omega), hlen']
    split_ifs <;> omega
  unfold ringContents
  rw [ringLength_succ hr hw hlen, List.range_succ, List.map_append, List.map_singleton, hlast,
    Function.update_self]
  congr 1
  refine List.map_congr_left fun i hi => ?_
  have hi' := List.mem_range.mp hi
  -- the cells before the last are other cells than the one at `w`
  have hne : (r + i) % N ≠ w := by
    rw [mod_of_lt_two_mul (by omega)]
    split_ifs at hlen' ⊢ <;> omega
  exact Function.update_of_ne hne _ _

theorem ringContents_take (hr : r < N) (hw : w < N) (hne : r ≠ w) (buffer : ℕ → α) :
    ringContents N buffer r w = buffer r :: ringContents N buffer ((r + 1) % N) w := by
  have hr' : (r + 1) % N < N := Nat.mod_lt _ (by omega)
  have hlen : ringLength N r w = ringLength N ((r + 1) % N) w + 1 := by
    rw [ringLength_eq hr hw, ringLength_eq hr' hw, succ_mod hr]
    split_ifs <;> omega
  unfold ringContents
  rw [hlen, List.range_succ_eq_map, List.map_cons, List.map_map, Nat.add_zero, Nat.mod_eq_of_lt hr]
  congr 1
  refine List.map_congr_left fun i _ => ?_
  rw [Function.comp_apply, Nat.mod_add_mod, show r + i.succ = r + 1 + i by omega]

end KeonOS
