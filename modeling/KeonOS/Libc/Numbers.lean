import Mathlib.Data.List.GetD
import KeonOS.Lib.Bytes
import KeonOS.Lib.Fuel

/-!
# Numbers as text

`itoa`, `utoa` and `ulltoa` put the digits of a number into a buffer, the least one first, and then turn
them round in place. `strtoul` reads them back.

* `numeral`: the text of a number;
* **`number_text_round_trip`**: `strtoul` inverts `ulltoa`, and the three writers agree.
-/

namespace KeonOS.Libc

open List Function

/-! ## The writers -/

def digitChar (d : ℕ) : UInt8 := UInt8.ofNat (if d < 10 then 48 + d else 87 + d)

/-- `"0123456789abcdef"` -/
def digits16 : List UInt8 := (range 16).map digitChar

/-- `"0123456789abcdefghijklmnopqrstuvwxyz"` -/
def digits36 : List UInt8 := (range 36).map digitChar

/-- `while (value) *ptr++ = digits[value % base], value /= base`, with the pointer behind the digits. -/
def digitLoop (digits : List UInt8) (base : ℕ) : ℕ → ℕ → Mem → ℕ → Option (Mem × ℕ)
  | 0, _, _, _ => none
  | fuel + 1, value, m, ptr =>
    if value = 0 then some (m, ptr)
    else digitLoop digits base fuel (value / base) (update m ptr (digits.getD (value % base) 0)) (ptr + 1)

/-- The swaps from both ends of the `n` characters at `low`. -/
def reverseLoop : ℕ → Mem → ℕ → Mem
  | 0, m, _ => m
  | 1, m, _ => m
  | n + 2, m, low =>
    reverseLoop n (update (update m low (m (low + n + 1))) (low + n + 1) (m low)) (low + 1)

/-- The terminator behind the digits, and the swaps. -/
def finish (str : ℕ) (r : Mem × ℕ) : Mem := reverseLoop (r.2 - str) (update r.1 r.2 0) str

/-- A 64-bit number has at most 64 digits in any base from 2 on. In a smaller base the loop does not end. -/
def itoa (value : ℕ) (m : Mem) (str base : ℕ) : Option Mem :=
  if value = 0 then some (update (update m str 48) (str + 1) 0)
  else (digitLoop digits16 base 65 value m str).map (finish str)

/-- The body of `utoa` and `ulltoa`, which write a digit before they look at the value. -/
def writeUnsigned (value : ℕ) (m : Mem) (str base : ℕ) : Option Mem :=
  if base < 2 ∨ 36 < base then some (update m str 0)
  else (digitLoop digits36 base 65 (value / base)
    (update m str (digits36.getD (value % base) 0)) (str + 1)).map (finish str)

def utoa (value : ℕ) (m : Mem) (str base : ℕ) : Option Mem := writeUnsigned value m str base

def ulltoa (value : ℕ) (m : Mem) (str base : ℕ) : Option Mem := writeUnsigned value m str base

/-! ## The reader -/

def isSpace (c : UInt8) : Bool := c = 32 || 9 ≤ c && c ≤ 13

/-- The number for a digit or a letter: `toupper(c) - 'A' + 10`. -/
def charValue (c : UInt8) : Option ℕ :=
  if 48 ≤ c ∧ c ≤ 57 then some (c.toNat - 48)
  else if 97 ≤ c ∧ c ≤ 122 then some (c.toNat - 32 - 65 + 10)
  else if 65 ≤ c ∧ c ≤ 90 then some (c.toNat - 65 + 10)
  else none

def skipSpaces (m : Mem) : ℕ → ℕ → Option ℕ
  | 0, _ => none
  | fuel + 1, s => if isSpace (m s) then skipSpaces m fuel (s + 1) else some s

/-- The loop of `strtoul`: `acc`, the pointer, and whether a digit was read. -/
def strtoulLoop (m : Mem) (base : ℕ) : ℕ → ℕ → ℕ → Bool → Option (ℕ × ℕ × Bool)
  | 0, _, _, _ => none
  | fuel + 1, acc, s, any =>
    match charValue (m s) with
    | none => some (acc, s, any)
    | some c =>
      if base ≤ c then some (acc, s, any)
      else strtoulLoop m base fuel ((acc * base + c) % 2 ^ 64) (s + 1) true

/-- The base, and where the digits start. -/
def baseAt (m : Mem) (s base : ℕ) : ℕ × ℕ :=
  if base = 0 then
    if m s = 48 then if m (s + 1) = 120 ∨ m (s + 1) = 88 then (16, s + 2) else (8, s + 1)
    else (10, s)
  else if base = 16 ∧ m s = 48 ∧ (m (s + 1) = 120 ∨ m (s + 1) = 88) then (base, s + 2)
  else (base, s)

/-- The value, and what is stored at `endptr`. -/
def strtoul (m : Mem) (nptr base fuel : ℕ) : Option (ℕ × ℕ) := do
  let s ← skipSpaces m fuel nptr
  let r ← strtoulLoop m (baseAt m s base).1 fuel 0 (baseAt m s base).2 false
  some (r.1, if r.2.2 then r.2.1 else nptr)

/-! ## Texts in memory -/

/-- The string `l` and its terminator are at `a`. -/
def HasText (m : Mem) : ℕ → List UInt8 → Prop
  | a, [] => m a = 0
  | a, c :: l => m a = c ∧ HasText m (a + 1) l

/-- The digits of a number, from the least one on. -/
def digitList (base v : ℕ) : List ℕ := if v = 0 then [0] else Nat.digits base v

def numeral (base v : ℕ) : List UInt8 := ((digitList base v).map digitChar).reverse

section Writers

variable {m : Mem} {base v str : ℕ}

theorem hasText_of {l : List UInt8} {a : ℕ} (h : ∀ i, (hi : i < l.length) → m (a + i) = l[i])
    (h0 : m (a + l.length) = 0) : HasText m a l := by
  induction l generalizing a with
  | nil => exact h0
  | cons c l ih =>
    refine ⟨h 0 (Nat.succ_pos _), ih (fun i hi => ?_) ?_⟩
    · rw [Nat.add_assoc, Nat.add_comm 1]
      exact h (i + 1) (Nat.succ_lt_succ hi)
    · rwa [Nat.add_assoc, Nat.add_comm 1]

theorem reverseLoop_apply (n : ℕ) (m : Mem) (low x : ℕ) : reverseLoop n m low x =
    if low ≤ x ∧ x < low + n then m (low + (low + n - 1 - x)) else m x := by
  induction n using Nat.twoStepInduction generalizing m low with
  | zero => rw [reverseLoop, if_neg (by omega)]
  | one =>
    rw [reverseLoop]
    split_ifs with h
    · congr 1
      omega
    · rfl
  | more n ih _ =>
    rw [reverseLoop, ih]
    by_cases hlow : x = low
    · rw [if_neg (by omega), if_pos (by omega), update_of_ne (by omega), hlow, update_self]
      congr 1
      omega
    by_cases hhigh : x = low + n + 1
    · rw [if_neg (by omega), if_pos (by omega), hhigh, update_self]
      congr 1
      omega
    by_cases hin : low ≤ x ∧ x < low + (n + 2)
    · rw [if_pos (by omega), if_pos hin, update_of_ne (by omega), update_of_ne (by omega)]
      congr 1
      omega
    · rw [if_neg (by omega), if_neg hin, update_of_ne hhigh, update_of_ne hlow]

/-- The characters `l`, stored at `str`. -/
def putChars (m : Mem) (str : ℕ) (l : List UInt8) : Mem := m.copy str l.length (Mem.ofBytes l)

theorem putChars_nil : putChars m str [] = m := funext fun _ => if_neg (by rw [length_nil]; omega)

theorem putChars_cons (c : UInt8) (l : List UInt8) :
    putChars m str (c :: l) = putChars (update m str c) (str + 1) l := by
  funext x
  simp only [putChars, Mem.copy, Mem.ofBytes, length_cons]
  rcases lt_trichotomy x str with hx | rfl | hx
  · rw [if_neg (by omega), if_neg (by omega), update_of_ne hx.ne]
  · rw [if_pos (by omega), if_neg (by omega), update_self, Nat.sub_self, getD_cons_zero]
  obtain ⟨k, rfl⟩ := Nat.exists_eq_add_of_lt hx
  have hk : str + k + 1 - str = k + 1 := by omega
  have hk' : str + k + 1 - (str + 1) = k := by omega
  rw [hk, hk', getD_cons_succ, update_of_ne hx.ne']
  exact if_congr (by omega) rfl rfl

theorem digitLoop_eq (digits : List UInt8) (hb : 2 ≤ base) {fuel : ℕ} (hv : v < 2 ^ fuel) :
    digitLoop digits base (fuel + 1) v m str =
      some (putChars m str ((Nat.digits base v).map (digits.getD · 0)),
        str + (Nat.digits base v).length) := by
  induction fuel generalizing v m str with
  | zero =>
    obtain rfl : v = 0 := by omega
    simp [digitLoop, putChars_nil]
  | succ fuel ih =>
    rw [digitLoop]
    by_cases h0 : v = 0
    · simp [h0, putChars_nil]
    have hlt : v / base < 2 ^ fuel := (Nat.div_le_div_left hb (by omega)).trans_lt (by omega)
    rw [if_neg h0, ih hlt, Nat.digits_def' hb (Nat.pos_of_ne_zero h0), map_cons, putChars_cons,
      length_cons, Nat.add_right_comm, Nat.add_assoc]

/-- The buffer with the number in it. -/
def written (m : Mem) (str base v : ℕ) : Mem :=
  finish str (putChars m str ((digitList base v).map digitChar), str + (digitList base v).length)

theorem hasText_written : HasText (written m str base v) str (numeral base v) := by
  rw [written, numeral, ← length_map digitChar]
  simp only [finish, Nat.add_sub_cancel_left]
  generalize (digitList base v).map digitChar = l
  refine hasText_of (fun i hi => ?_) ?_
  · rw [length_reverse] at hi
    rw [reverseLoop_apply, if_pos (by omega), update_of_ne (by omega), putChars,
      Mem.copy_apply (by omega) (by omega), getElem_reverse, Mem.ofBytes,
      List.getD_eq_getElem _ _ (by omega)]
    congr 1
    omega
  · rw [length_reverse, reverseLoop_apply, if_neg (by omega), update_self]

theorem digitList_lt (hb : 2 ≤ base) : ∀ d ∈ digitList base v, d < base := by
  intro d hd
  unfold digitList at hd
  split_ifs at hd
  · rw [mem_singleton.mp hd]
    omega
  · exact Nat.digits_lt_base hb hd

section Eq

variable (hb : 2 ≤ base) (hv : v < 2 ^ 64)
include hb hv

theorem ulltoa_eq (h36 : base ≤ 36) : ulltoa v m str base = some (written m str base v) := by
  have hdigits : ∀ d < 36, digits36.getD d 0 = digitChar d := by decide
  have hlist : v % base :: Nat.digits base (v / base) = digitList base v := by
    unfold digitList
    split_ifs with h0
    · simp [h0]
    · rw [Nat.digits_def' hb (Nat.pos_of_ne_zero h0)]
  have hmap : (digitList base v).map (digits36.getD · 0) = (digitList base v).map digitChar :=
    map_congr_left fun d hd => hdigits d ((digitList_lt hb d hd).trans_le h36)
  rw [ulltoa, writeUnsigned, if_neg (by omega), written, ← hmap, ← hlist, map_cons,
    digitLoop_eq _ hb ((Nat.div_le_self v base).trans_lt hv), putChars_cons, length_cons,
    Nat.add_right_comm, Nat.add_assoc]
  rfl

theorem itoa_eq (h16 : base ≤ 16) : itoa v m str base = some (written m str base v) := by
  have hdigits : ∀ d < 16, digits16.getD d 0 = digitChar d := by decide
  have hmap : (digitList base v).map (digits16.getD · 0) = (digitList base v).map digitChar :=
    map_congr_left fun d hd => hdigits d ((digitList_lt hb d hd).trans_le h16)
  rw [itoa]
  split_ifs with h0
  · rw [written, digitList, if_pos h0, map_singleton, putChars_cons, putChars_nil, finish,
      length_singleton, Nat.add_sub_cancel_left]
    rfl
  · rw [written, ← hmap, digitLoop_eq _ hb hv, digitList, if_neg h0]
    rfl

end Eq

end Writers

/-! ## The round trip -/

section Reader

variable {m : Mem} {base s : ℕ} {ds : List ℕ}

theorem charValue_digitChar : ∀ d < 36, charValue (digitChar d) = some d := by decide

theorem strtoulLoop_eq (hlt : ∀ d ∈ ds, d < base) (h36 : base ≤ 36)
    (h : HasText m s (ds.map digitChar)) (a : ℕ) (any : Bool) {k : ℕ} (hk : ds.length < k) :
    strtoulLoop m base k (a % 2 ^ 64) s any =
      some (ds.foldl (fun a d => a * base + d) a % 2 ^ 64, s + ds.length, any || !ds.isEmpty) := by
  induction ds generalizing k a s any with
  | nil =>
    obtain ⟨k, rfl⟩ := Nat.exists_eq_add_of_lt hk
    have h0 : charValue (m s) = none := by
      rw [show m s = 0 from h]
      rfl
    simp [strtoulLoop, h0]
  | cons d ds ih =>
    obtain ⟨k, rfl⟩ := Nat.exists_eq_add_of_lt hk
    obtain ⟨hd, hrest⟩ := h
    have hdlt := hlt d mem_cons_self
    have hstep := ih (fun e he => hlt e (mem_cons_of_mem _ he)) hrest (a * base + d) true
      (k := ds.length + 1 + k) (by omega)
    have hmod : (a % 2 ^ 64 * base + d) % 2 ^ 64 = (a * base + d) % 2 ^ 64 :=
      ((Nat.mod_modEq a _).mul_right base).add_right d
    rw [length_cons, strtoulLoop, hd, charValue_digitChar d (by omega)]
    simp only
    rw [if_neg (by omega), hmod, hstep, foldl_cons, Nat.add_right_comm, Nat.add_assoc]
    simp

theorem foldl_digitList (base v : ℕ) :
    (digitList base v).reverse.foldl (fun a d => a * base + d) 0 = v := by
  have hfold : (digitList base v).reverse.foldl (fun a d => a * base + d) 0 =
      Nat.ofDigits base (digitList base v) := by
    rw [foldl_reverse, Nat.ofDigits_eq_foldr]
    simp only [Nat.cast_id, Nat.add_comm, Nat.mul_comm]
  rw [hfold, digitList]
  split_ifs with h0
  · simp [h0]
  · exact Nat.ofDigits_digits base v

theorem numeral_eq (base v : ℕ) : numeral base v = (digitList base v).reverse.map digitChar := by
  rw [numeral, map_reverse]

theorem digitList_ne_nil (base v : ℕ) : digitList base v ≠ [] := by
  unfold digitList
  split_ifs with h0
  · exact cons_ne_nil _ _
  · exact Nat.digits_ne_nil_iff_ne_zero.mpr h0

theorem strtoul_numeral {v : ℕ} (hb : 2 ≤ base) (h36 : base ≤ 36) (hv : v < 2 ^ 64)
    (h : HasText m s (numeral base v)) :
    Ends (strtoul m s base) (v, s + (numeral base v).length) := by
  have hlt : ∀ d ∈ (digitList base v).reverse, d < base := fun d hd =>
    digitList_lt hb d (mem_reverse.mp hd)
  have hne := reverse_ne_nil_iff.mpr (digitList_ne_nil base v)
  have hval := foldl_digitList base v
  rw [numeral_eq] at h ⊢
  generalize (digitList base v).reverse = ds at *
  obtain ⟨d, ds, rfl⟩ := exists_cons_of_ne_nil hne
  have hchars : ∀ d < 36, isSpace (digitChar d) = false ∧
      (d < 16 → digitChar d ≠ 120 ∧ digitChar d ≠ 88) := by decide
  have hd := hchars d ((hlt d mem_cons_self).trans_le h36)
  have hbase : baseAt m s base = (base, s) := by
    rw [baseAt, if_neg (by omega), if_neg]
    rintro ⟨rfl, -, hx⟩
    cases ds with
    | nil =>
      have h0 : m (s + 1) = 0 := h.2
      rw [h0] at hx
      revert hx
      decide
    | cons e ds =>
      have he := (hchars e (by have := hlt e (by simp); omega)).2 (hlt e (by simp))
      rw [h.2.1] at hx
      exact hx.elim he.1 he.2
  refine ⟨(d :: ds).length + 1, fun k hk => ?_⟩
  obtain ⟨k, rfl⟩ := Nat.exists_eq_add_of_lt hk
  rw [strtoul, skipSpaces, h.1, hd.1]
  simp only [Bool.false_eq_true, if_false, Option.bind_eq_bind, Option.bind_some, hbase]
  rw [← Nat.zero_mod (2 ^ 64), strtoulLoop_eq hlt h36 h _ _ (by omega), hval, Nat.mod_eq_of_lt hv]
  simp

end Reader

/-- **A number survives the way through its text.** `ulltoa` writes the text of `v` at `str`, `strtoul` reads
`v` back and stops at the terminator, and `utoa` and `itoa` leave the same buffer. -/
theorem number_text_round_trip (m : Mem) (str : ℕ) {v base : ℕ} (hv : v < 2 ^ 64) (hb : 2 ≤ base)
    (h36 : base ≤ 36) : ∃ m' text, ulltoa v m str base = some m' ∧ HasText m' str text ∧ 0 ∉ text ∧
      Ends (strtoul m' str base) (v, str + text.length) ∧ (text.head? = some 48 → v = 0) ∧
      (v < 2 ^ 32 → utoa v m str base = some m') ∧ (base ≤ 16 → itoa v m str base = some m') := by
  have hchars : ∀ d < 36, digitChar d ≠ 0 ∧ (digitChar d = 48 → d = 0) := by decide
  refine ⟨_, numeral base v, ulltoa_eq hb hv h36, hasText_written, ?_,
    strtoul_numeral hb h36 hv hasText_written, ?_, fun _ => ulltoa_eq hb hv h36, itoa_eq hb hv⟩
  · rw [numeral_eq, mem_map]
    rintro ⟨d, hd, h0⟩
    exact (hchars d ((digitList_lt hb d (mem_reverse.mp hd)).trans_le h36)).1 h0
  intro hhead
  rw [numeral, head?_reverse, getLast?_map, Option.map_eq_some_iff] at hhead
  obtain ⟨d, hlast, h48⟩ := hhead
  have hd := digitList_lt hb d (mem_of_getLast? hlast)
  obtain rfl := (hchars d (hd.trans_le h36)).2 h48
  by_contra h0
  rw [digitList, if_neg h0, getLast?_eq_some_getLast (Nat.digits_ne_nil_iff_ne_zero.mpr h0)] at hlast
  exact Nat.getLast_digit_ne_zero base h0 (Option.some.inj hlast)

theorem number_text_round_trip_255 : ∃ m' text, ulltoa 255 (fun _ => 0) 0 16 = some m' ∧
    HasText m' 0 text ∧ 0 ∉ text ∧ Ends (strtoul m' 0 16) (255, 0 + text.length) ∧
      (text.head? = some 48 → 255 = 0) ∧ (255 < 2 ^ 32 → utoa 255 (fun _ => 0) 0 16 = some m') ∧
      (16 ≤ 16 → itoa 255 (fun _ => 0) 0 16 = some m') :=
  number_text_round_trip _ _ (by decide) (by decide) (by decide)

end KeonOS.Libc
