import Mathlib

/-!
# File positions

`fseek` compares a 64-bit offset after it has cut it to 32 bits, and stores positions of 64 bits.

* **`fseek_exact_iff`**: the calls that do what the position asked for demands.
-/

namespace KeonOS.Libc

structure File where
  fd : ℕ
  offset : ℕ
  size : ℕ
  error : ℤ
deriving DecidableEq

def File.moved (stream : File) (position : ℕ) : File := { stream with offset := position, error := 0 }

/-- The least bits of `-offset`: `(uint32_t)(-offset)`. -/
def backward (offset : BitVec 64) : ℕ := (-offset).toNat % 2 ^ 32

/-- `fseek` on a stream that is not null; 0, 1 and 2 are `SEEK_SET`, `SEEK_CUR` and `SEEK_END`. -/
def fseek (stream : File) (offset : BitVec 64) (whence : ℤ) : ℤ × File :=
  if whence = 0 then
    if offset.toInt < 0 then (-1, stream) else (0, stream.moved (offset.toNat % 2 ^ 32))
  else if whence = 1 then
    if offset.toInt < 0 ∧ stream.offset < backward offset then (-1, stream)
    else (0, stream.moved ((stream.offset + offset.toNat) % 2 ^ 64))
  else if whence = 2 then
    if 0 < offset.toInt then (-1, stream)
    else if stream.size < backward offset then (-1, stream)
    else (0, stream.moved ((stream.size + offset.toNat) % 2 ^ 64))
  else (-1, stream)

/-- The position asked for. -/
def target (stream : File) (offset whence : ℤ) : Option ℤ :=
  if whence = 0 then some offset
  else if whence = 1 then some (stream.offset + offset)
  else if whence = 2 ∧ offset ≤ 0 then some (stream.size + offset)
  else none

/-- What the call should do: move to the position if it is one of 32 bits, and fail otherwise. -/
def seekExact (stream : File) (offset whence : ℤ) : ℤ × File :=
  match target stream offset whence with
  | some p => if 0 ≤ p ∧ p < 2 ^ 32 then (0, stream.moved p.toNat) else (-1, stream)
  | none => (-1, stream)

/-- The offsets on which the comparisons and the stored position are right. -/
def SeekFits (stream : File) (offset : BitVec 64) (whence : ℤ) : Prop :=
  (whence = 0 → offset.toInt < 2 ^ 32) ∧
  (whence = 1 → stream.offset + offset.toInt < 2 ^ 32 ∧
    (offset.toInt ≤ -2 ^ 32 → stream.offset < backward offset)) ∧
  (whence = 2 → offset.toInt ≤ -2 ^ 32 → stream.size < backward offset)

theorem relative_exact_iff (stream : File) {start : ℕ} (hs : start < 2 ^ 32) (offset : BitVec 64) :
    (if offset.toInt < 0 ∧ start < backward offset then ((-1 : ℤ), stream)
      else (0, stream.moved ((start + offset.toNat) % 2 ^ 64))) =
    (if 0 ≤ start + offset.toInt ∧ start + offset.toInt < 2 ^ 32 then
      (0, stream.moved (start + offset.toInt).toNat) else (-1, stream)) ↔
    start + offset.toInt < 2 ^ 32 ∧ (offset.toInt ≤ -2 ^ 32 → start < backward offset) := by
  have hlt := offset.isLt
  have hint := BitVec.toInt_eq_toNat_cond offset
  have hback : offset.toInt < 0 → -2 ^ 32 < offset.toInt → (backward offset : ℤ) = -offset.toInt := by
    intro hneg hnear
    rw [backward, BitVec.toNat_neg]
    split_ifs at hint <;> omega
  have hpos : 0 ≤ start + offset.toInt →
      (start + offset.toNat) % 2 ^ 64 = (start + offset.toInt).toNat := by
    intro h
    split_ifs at hint <;> omega
  by_cases hfail : offset.toInt < 0 ∧ start < backward offset
  · rw [if_pos hfail, if_neg (by omega)]
    exact iff_of_true rfl ⟨by omega, fun _ => hfail.2⟩
  rw [if_neg hfail]
  by_cases hfit : 0 ≤ start + offset.toInt ∧ start + offset.toInt < 2 ^ 32
  · rw [if_pos hfit, hpos hfit.1]
    exact iff_of_true rfl ⟨hfit.2, by omega⟩
  · rw [if_neg hfit]
    exact iff_of_false (by simp) (by omega)

/-- **`fseek` is exact** on the calls of `SeekFits`, and on no others. -/
theorem fseek_exact_iff {stream : File} (hoffset : stream.offset < 2 ^ 32) (hsize : stream.size < 2 ^ 32)
    (offset : BitVec 64) (whence : ℤ) :
    fseek stream offset whence = seekExact stream offset.toInt whence ↔ SeekFits stream offset whence := by
  rw [fseek, seekExact, target]
  by_cases h0 : whence = 0
  · have hfits : SeekFits stream offset whence ↔ offset.toInt < 2 ^ 32 := by simp [SeekFits, h0]
    have hint := BitVec.toInt_eq_toNat_cond offset
    rw [hfits, if_pos h0, if_pos h0]
    dsimp only
    by_cases hneg : offset.toInt < 0
    · rw [if_pos hneg, if_neg (by omega)]
      exact iff_of_true rfl (by omega)
    rw [if_neg hneg]
    by_cases hlt : offset.toInt < 2 ^ 32
    · have hval : offset.toNat % 2 ^ 32 = offset.toInt.toNat := by split_ifs at hint <;> omega
      rw [if_pos ⟨not_lt.mp hneg, hlt⟩, hval]
      exact iff_of_true rfl hlt
    · rw [if_neg fun h => hlt h.2]
      exact iff_of_false (by simp) hlt
  by_cases h1 : whence = 1
  · have hfits : SeekFits stream offset whence ↔ stream.offset + offset.toInt < 2 ^ 32 ∧
        (offset.toInt ≤ -2 ^ 32 → stream.offset < backward offset) := by simp [SeekFits, h1]
    rw [hfits, if_neg h0, if_pos h1, if_neg h0, if_pos h1]
    exact relative_exact_iff stream hoffset offset
  by_cases h2 : whence = 2
  · have hfits : SeekFits stream offset whence ↔
        (offset.toInt ≤ -2 ^ 32 → stream.size < backward offset) := by simp [SeekFits, h2]
    rw [hfits, if_neg h0, if_neg h1, if_pos h2, if_neg h0, if_neg h1]
    by_cases hpos : 0 < offset.toInt
    · rw [if_pos hpos, if_neg (by omega)]
      exact iff_of_true rfl (by omega)
    have hcond : stream.size < backward offset ↔ offset.toInt < 0 ∧ stream.size < backward offset := by
      refine ⟨fun h => ⟨?_, h⟩, And.right⟩
      by_contra hneg
      have hzero : offset = 0#64 := BitVec.eq_of_toInt_eq (by rw [BitVec.toInt_zero]; omega)
      rw [hzero] at h
      exact absurd h (Nat.not_lt_zero _)
    have hrel := relative_exact_iff stream hsize offset
    rw [← if_congr hcond rfl rfl] at hrel
    rw [if_neg hpos, if_pos (show whence = 2 ∧ offset.toInt ≤ 0 from ⟨h2, not_lt.mp hpos⟩)]
    exact hrel.trans (and_iff_right (by omega))
  · rw [if_neg h0, if_neg h1, if_neg h2, if_neg h0, if_neg h1, if_neg fun h => h2 h.1]
    exact iff_of_true rfl (by simp [SeekFits, h0, h1, h2])

theorem fseek_exact_iff_end : fseek ⟨1, 0, 10, 0⟩ (-4) 2 = seekExact ⟨1, 0, 10, 0⟩ (-4 : BitVec 64).toInt 2 :=
  (fseek_exact_iff (by decide) (by decide) _ _).mpr (by unfold SeekFits; decide)

/-- `fseek(stream, 1 << 32, SEEK_SET)` succeeds and goes to the start of the file. -/
theorem fseek_truncates : fseek ⟨1, 7, 10, 0⟩ (2 ^ 32) 0 = (0, ⟨1, 0, 10, 0⟩) ∧
    seekExact ⟨1, 7, 10, 0⟩ (2 ^ 32 : BitVec 64).toInt 0 = (-1, ⟨1, 7, 10, 0⟩) := by decide

end KeonOS.Libc
