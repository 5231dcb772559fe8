import Mathlib.Tactic

/-!
# Byte memories

A memory assigns a byte to every address. Numbers are stored in it in little-endian order.

* **`readLE_writeLE`**: a number read back is the number written, modulo its width;
* `readLE_writeLE_of_disjoint`, `readLE_fillMem_of_disjoint`: other ranges keep their contents.
-/

/-- A byte for every address. -/
abbrev Mem := ℕ → UInt8

namespace Mem

/-- The little-endian number in the `n` bytes from `a`. -/
def readLE (m : Mem) : ℕ → ℕ → ℕ
  | _, 0 => 0
  | a, n + 1 => (m a).toNat + 256 * readLE m (a + 1) n

/-- Store the low `n` bytes of `v` from `a`. -/
def writeLE (m : Mem) (a n v : ℕ) : Mem := fun x =>
  if a ≤ x ∧ x < a + n then UInt8.ofNat (v / 256 ^ (x - a)) else m x

/-- Set the `n` bytes from `a` to `b`. -/
def fillMem (m : Mem) (a n : ℕ) (b : UInt8) : Mem := fun x =>
  if a ≤ x ∧ x < a + n then b else m x

/-- The `n` bytes from `a`, at the addresses from zero on. -/
def slice (m : Mem) (a n : ℕ) : Mem := fun i => if i < n then m (a + i) else 0

/-- Overwrite the `n` bytes from `a` with the first bytes of `src`. -/
def copy (m : Mem) (a n : ℕ) (src : Mem) : Mem := fun x =>
  if a ≤ x ∧ x < a + n then src (x - a) else m x

/-- The bytes `[a, a + n)` of a memory. -/
def bytesAt (m : Mem) (a n : ℕ) : List UInt8 := (List.range n).map fun i => m (a + i)

def ofBytes (l : List UInt8) : Mem := fun i => l.getD i 0

def leBytes (n v : ℕ) : List UInt8 := (List.range n).map fun i => UInt8.ofNat (v / 256 ^ i)

def bit (m : Mem) (i : ℕ) : Bool := (m (i / 8)).toNat.testBit (i % 8)

def setBit (m : Mem) (i : ℕ) (value : Bool) : Mem := Function.update m (i / 8)
    (if value then m (i / 8) ||| UInt8.ofNat (2 ^ (i % 8))
     else m (i / 8) &&& ~~~ UInt8.ofNat (2 ^ (i % 8)))

variable {m m' : Mem} {a b n v x k i : ℕ}

theorem readLE_congr (h : ∀ i < n, m (a + i) = m' (b + i)) : m.readLE a n = m'.readLE b n := by
  induction n generalizing a b with
  | zero => rfl
  | succ n ih =>
    rw [readLE, readLE, ih fun i hi => ?_]
    · rw [show m a = m' b from h 0 (Nat.succ_pos n)]
    · have := h (i + 1) (by omega)
      rwa [show a + (i + 1) = a + 1 + i by omega, show b + (i + 1) = b + 1 + i by omega] at this

theorem readLE_lt (m : Mem) (a n : ℕ) : m.readLE a n < 256 ^ n := by
  induction n generalizing a with
  | zero => simp [readLE]
  | succ n ih =>
    have h1 := (m a).toNat_lt
    have h2 := ih (a + 1)
    rw [readLE, pow_succ]
    omega

theorem readLE_eq_mod
    (h : ∀ i < n, (m (a + i)).toNat = v / 256 ^ i % 256) : m.readLE a n = v % 256 ^ n := by
  induction n generalizing a v with
  | zero => simp [readLE, Nat.mod_one]
  | succ n ih =>
    have h0 : (m a).toNat = v % 256 := by simpa using h 0 (Nat.succ_pos n)
    have hs : m.readLE (a + 1) n = v / 256 % 256 ^ n := by
      refine ih fun i hi => ?_
      have := h (i + 1) (by omega)
      rwa [show a + (i + 1) = a + 1 + i by omega, pow_succ', ← Nat.div_div_eq_div_mul] at this
    rw [readLE, h0, hs, pow_succ', Nat.mod_mul]

theorem readLE_inj (h : m.readLE a n = m'.readLE b n) : ∀ i < n, m (a + i) = m' (b + i) := by
  induction n generalizing a b with
  | zero => exact fun i hi => absurd hi (Nat.not_lt_zero i)
  | succ n ih =>
    rw [readLE, readLE] at h
    have h1 := (m a).toNat_lt
    have h2 := (m' b).toNat_lt
    have hbyte : m a = m' b := UInt8.toNat_inj.mp (by omega)
    have hrest := ih (show m.readLE (a + 1) n = m'.readLE (b + 1) n by omega)
    intro i hi
    cases i with
    | zero => exact hbyte
    | succ i =>
      rw [show a + (i + 1) = a + 1 + i by omega, show b + (i + 1) = b + 1 + i by omega]
      exact hrest i (by omega)

theorem readLE_writeLE (m : Mem) (a n v : ℕ) : (m.writeLE a n v).readLE a n = v % 256 ^ n := by
  refine readLE_eq_mod fun i hi => ?_
  rw [writeLE, if_pos ⟨by omega, by omega⟩, Nat.add_sub_cancel_left]
  simp

theorem writeLE_apply_of_notMem (h : x < a ∨ a + n ≤ x) : m.writeLE a n v x = m x := by
  rw [writeLE, if_neg (by omega)]

theorem writeLE_readLE (m : Mem) (a n : ℕ) : m.writeLE a n (m.readLE a n) = m := by
  have hread : (m.writeLE a n (m.readLE a n)).readLE a n = m.readLE a n := by
    rw [readLE_writeLE, Nat.mod_eq_of_lt (readLE_lt m a n)]
  funext x
  by_cases hx : a ≤ x ∧ x < a + n
  · have hbyte := readLE_inj hread (x - a) (by omega)
    rwa [Nat.add_sub_cancel' hx.1] at hbyte
  · exact writeLE_apply_of_notMem (by omega)

theorem fillMem_apply_of_notMem {b : UInt8} (h : x < a ∨ a + n ≤ x) : m.fillMem a n b x = m x := by
  rw [fillMem, if_neg (by omega)]

theorem fillMem_apply {b : UInt8} (h1 : a ≤ x) (h2 : x < a + n) : m.fillMem a n b x = b := by
  rw [fillMem, if_pos ⟨h1, h2⟩]

theorem readLE_writeLE_of_disjoint (h : b + k ≤ a ∨ a + n ≤ b) :
    (m.writeLE a n v).readLE b k = m.readLE b k :=
  readLE_congr fun i hi => writeLE_apply_of_notMem (by omega)

theorem readLE_fillMem_of_disjoint {c : UInt8}
    (h : b + k ≤ a ∨ a + n ≤ b) : (m.fillMem a n c).readLE b k = m.readLE b k :=
  readLE_congr fun i hi => fillMem_apply_of_notMem (by omega)

theorem readLE_of_zero (h : ∀ i < n, m (a + i) = 0) : m.readLE a n = 0 := by
  have := readLE_eq_mod (m := m) (a := a) (n := n) (v := 0) fun i hi => by rw [h i hi]; simp
  simpa using this

theorem readLE_fillMem_zero (h1 : a ≤ b) (h2 : b + k ≤ a + n) : (m.fillMem a n 0).readLE b k = 0 :=
  readLE_of_zero fun _ _ => fillMem_apply (by omega) (by omega)

/-! ## Ranges -/

section Range

variable {m src : Mem} {a n b k x : ℕ}

theorem slice_apply (h : x < n) : m.slice a n x = m (a + x) := if_pos h

theorem slice_congr (h : ∀ i < n, m (a + i) = m' (b + i)) : m.slice a n = m'.slice b n := by
  funext i
  simp only [slice]
  split_ifs with hi
  · exact h i hi
  · rfl

theorem readLE_slice (h : b + k ≤ n) : (m.slice a n).readLE b k = m.readLE (a + b) k :=
  readLE_congr fun i hi => by rw [slice_apply (by omega), Nat.add_assoc]

theorem slice_slice (h : b + k ≤ n) : (m.slice a n).slice b k = m.slice (a + b) k :=
  slice_congr fun i hi => by rw [slice_apply (by omega), Nat.add_assoc]

theorem copy_apply (h1 : a ≤ x) (h2 : x < a + n) : m.copy a n src x = src (x - a) := if_pos ⟨h1, h2⟩

theorem copy_apply_of_notMem (h : x < a ∨ a + n ≤ x) : m.copy a n src x = m x := if_neg (by omega)

theorem slice_copy : (m.copy a n src).slice a n = src.slice 0 n :=
  slice_congr fun i hi => by rw [copy_apply (by omega) (by omega), Nat.add_sub_cancel_left, Nat.zero_add]

theorem slice_copy_of_disjoint (h : b + k ≤ a ∨ a + n ≤ b) : (m.copy a n src).slice b k = m.slice b k :=
  slice_congr fun i hi => copy_apply_of_notMem (by omega)

theorem slice_slice_zero : (m.slice a n).slice 0 n = m.slice a n := by
  rw [slice_slice (by omega), Nat.add_zero]

theorem slice_eq_self_of_eq (h : m.slice 0 n = m) (hx : ∀ x, n ≤ x → m' x = m x) :
    m'.slice 0 n = m' := by
  funext x
  simp only [slice]
  split_ifs with hlt
  · rw [Nat.zero_add]
  · rw [hx x (not_lt.mp hlt), ← h, slice, if_neg hlt]

end Range

/-! ## Bitmaps -/

theorem setBit_apply_of_ne {value : Bool} (h : x ≠ i / 8) :
    m.setBit i value x = m x := Function.update_of_ne h _ _

theorem testBit_set (x : UInt8) {j : ℕ} (hi : i < 8) (hj : j < 8) (value : Bool) :
    (if value then x ||| UInt8.ofNat (2 ^ i) else x &&& ~~~ UInt8.ofNat (2 ^ i)).toNat.testBit j =
      if j = i then value else x.toNat.testBit j := by
  have hpow : (UInt8.ofNat (2 ^ i)).toNat = 2 ^ i := by
    rw [UInt8.toNat_ofNat', Nat.mod_eq_of_lt (Nat.pow_lt_pow_right (by norm_num) hi)]
  cases value
  · have hmask : ∀ i < 8, ∀ j < 8, Nat.testBit (UInt8.size - 1 - 2 ^ i) j = decide (j ≠ i) := by
      decide
    rw [if_neg (by decide), UInt8.toNat_and, Nat.testBit_and, UInt8.toNat_not, hpow, hmask i hi j hj]
    split_ifs with h <;> simp [h]
  · rw [if_pos rfl, UInt8.toNat_or, Nat.testBit_or, hpow, Nat.testBit_two_pow]
    split_ifs with h
    · simp [h]
    · simp [Ne.symm h]

theorem bit_setBit (m : Mem) (i j : ℕ) (value : Bool) :
    (m.setBit i value).bit j = if j = i then value else m.bit j := by
  by_cases hbyte : j / 8 = i / 8
  · have hiff : j % 8 = i % 8 ↔ j = i := by omega
    rw [bit, setBit, hbyte, Function.update_self,
      testBit_set _ (Nat.mod_lt i (by norm_num)) (Nat.mod_lt j (by norm_num)), bit, hbyte]
    simp only [hiff]
  · have hne : j ≠ i := fun h => hbyte (by rw [h])
    rw [bit, setBit_apply_of_ne hbyte, bit, if_neg hne]

theorem ext_bit (h : ∀ i, m.bit i = m'.bit i) : m = m' := by
  funext x
  refine UInt8.toNat_inj.mp (Nat.eq_of_testBit_eq fun j => ?_)
  by_cases hj : j < 8
  · have hbit := h (8 * x + j)
    rwa [bit, bit, show (8 * x + j) / 8 = x by omega, show (8 * x + j) % 8 = j by omega] at hbit
  · have hlt : ∀ b : UInt8, b.toNat < 2 ^ j := fun b =>
      b.toNat_lt.trans_le (Nat.pow_le_pow_right (by norm_num) (not_lt.mp hj))
    rw [Nat.testBit_lt_two_pow (hlt _), Nat.testBit_lt_two_pow (hlt _)]

theorem setBit_setBit_self (h : m.bit i = false) : (m.setBit i true).setBit i false = m := by
  refine ext_bit fun j => ?_
  rw [bit_setBit, bit_setBit]
  split_ifs with hj
  · rw [hj, h]
  · rfl

/-- How many of the first `n` bits are clear. -/
def clearBits (m : Mem) (n : ℕ) : ℕ := ((Finset.range n).filter fun i => m.bit i = false).card

theorem clearBits_le (m : Mem) (n : ℕ) : m.clearBits n ≤ n :=
  (Finset.card_filter_le _ _).trans_eq (Finset.card_range n)

theorem clearBits_pos : 0 < m.clearBits n ↔ ∃ i < n, m.bit i = false := by
  simp [clearBits, Finset.card_pos, Finset.Nonempty]

theorem clearBits_set (hi : i < n) (hbit : m.bit i = false)
    (h : ∀ j < n, m'.bit j = if j = i then true else m.bit j) :
    m'.clearBits n + 1 = m.clearBits n := by
  have herase : ((Finset.range n).filter fun j => m'.bit j = false) =
      ((Finset.range n).filter fun j => m.bit j = false).erase i := by
    ext j
    simp only [Finset.mem_filter, Finset.mem_erase, Finset.mem_range]
    refine ⟨fun hj => ?_, fun hj => ?_⟩
    · have hne : j ≠ i := fun heq => by rw [h j hj.1, if_pos heq] at hj; simp at hj
      exact ⟨hne, hj.1, by rw [← hj.2, h j hj.1, if_neg hne]⟩
    · exact ⟨hj.2.1, by rw [h j hj.2.1, if_neg hj.1, hj.2.2]⟩
  rw [clearBits, herase]
  exact Finset.card_erase_add_one (by simp [hi, hbit])

/-! ## Lists of bytes -/

section Lists

variable {m : Mem} {a n k : ℕ} {l l' : List UInt8}

@[simp]
theorem length_bytesAt : (m.bytesAt a n).length = n := by simp [bytesAt]

@[simp]
theorem length_leBytes (v : ℕ) : (leBytes n v).length = n := by simp [leBytes]

theorem bytesAt_add : m.bytesAt a (n + k) = m.bytesAt a n ++ m.bytesAt (a + n) k := by
  simp only [bytesAt, List.range_add, List.map_append, List.map_map, Function.comp_def, Nat.add_assoc]

theorem bytesAt_append (h : m.bytesAt a (l ++ l').length = l ++ l') :
    m.bytesAt a l.length = l ∧ m.bytesAt (a + l.length) l'.length = l' := by
  rw [List.length_append, bytesAt_add] at h
  exact List.append_inj h length_bytesAt

theorem readLE_of_bytesAt (h : m.bytesAt a n = leBytes n v) : m.readLE a n = v % 256 ^ n := by
  refine readLE_eq_mod fun i hi => ?_
  have hi' : (m.bytesAt a n)[i]? = (leBytes n v)[i]? := by rw [h]
  simp only [bytesAt, leBytes, List.getElem?_map, List.getElem?_range hi, Option.map_some,
    Option.some.injEq] at hi'
  rw [hi']
  simp

theorem bytesAt_ofBytes (l : List UInt8) : (ofBytes l).bytesAt 0 l.length = l := by
  refine List.ext_getElem (by simp) fun i h1 h2 => ?_
  simp only [bytesAt, List.getElem_map, List.getElem_range, ofBytes, Nat.zero_add,
    List.getD_eq_getElem?_getD, List.getElem?_eq_getElem h2, Option.getD_some]

theorem bytesAt_congr (h : ∀ i < n, m' (b + i) = m (a + i)) : m'.bytesAt b n = m.bytesAt a n :=
  List.map_congr_left fun i hi => h i (List.mem_range.mp hi)

theorem bytesAt_copy (src : Mem) : (m.copy a n src).bytesAt a n = src.bytesAt 0 n :=
  bytesAt_congr fun i hi => by
    rw [copy_apply (Nat.le_add_right a i) (by omega), Nat.add_sub_cancel_left, Nat.zero_add]

end Lists

end Mem
