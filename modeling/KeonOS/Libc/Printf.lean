import KeonOS.Libc.Numbers

/-!
# Formatted output

`vprintf` of the kernel and `vprintf` of the user library, as the characters they emit (the result is the
number of these), and `atoi`. A signed value reaches the unsigned `itoa`: the kernel passes it on as it is,
the user library negates it first.

* **`signed_formatting_iff`**: the values whose decimal text comes out.
-/

namespace KeonOS.Libc

open List

/-- An argument: the word, and the string it points to if it is not null. -/
structure VaArg where
  word : BitVec 64
  text : Option (List UInt8)

namespace VaArg

/-- `va_arg(arg, int)`, `long` or `long long` by the number of `l`s, as a `long long`. -/
def signed (a : VaArg) (lengthMod : ℕ) : BitVec 64 :=
  if lengthMod = 0 then (a.word.setWidth 32).signExtend 64 else a.word

def unsigned (a : VaArg) (lengthMod : ℕ) : BitVec 64 :=
  if lengthMod = 0 then (a.word.setWidth 32).setWidth 64 else a.word

/-- The string, or `"(null)"`. -/
def string (a : VaArg) : List UInt8 := a.text.getD [40, 110, 117, 108, 108, 41]

end VaArg

/-- The characters of `char buffer[64]` in front of the terminator. -/
def bufferText (m : Mem) : List UInt8 := (m.bytesAt 0 64).takeWhile (· ≠ 0)

def pad (alignLeft : Bool) (width totalLen : ℕ) (body : List UInt8) : List UInt8 :=
  if alignLeft then body ++ replicate (width - totalLen) 32 else replicate (width - totalLen) 32 ++ body

/-- `0x` and the digits, at least sixteen of them. -/
def pointerText (digits : List UInt8) : List UInt8 := [48, 120] ++ replicate (16 - digits.length) 48 ++ digits

/-- One conversion of the kernel; `buffer` is what the stack held. `none` for any other character. -/
def convert (buffer : Mem) (alignLeft : Bool) (width lengthMod : ℕ) (type : UInt8) (a : VaArg) :
    Option (List UInt8) :=
  let padded (body : List UInt8) := pad alignLeft width body.length body
  if type = 99 then some [UInt8.ofNat a.word.toNat]
  else if type = 115 then some (padded a.string)
  else if type = 100 ∨ type = 105 then
    (itoa (a.signed lengthMod).toNat buffer 0 10).map fun m => padded (bufferText m)
  else if type = 117 then
    (ulltoa (a.unsigned lengthMod).toNat buffer 0 10).map fun m => padded (bufferText m)
  else if type = 120 then
    (ulltoa (a.unsigned lengthMod).toNat buffer 0 16).map fun m => padded (bufferText m)
  else if type = 112 then
    (ulltoa a.word.toNat buffer 0 16).map fun m => padded (pointerText (bufferText m))
  else none

/-- `c`, `s`, `d`, `i`, `u`, `x`, `p` -/
def isConversion (type : UInt8) : Bool := [99, 115, 100, 105, 117, 120, 112].contains type

def isDigit (c : UInt8) : Bool := 48 ≤ c && c ≤ 57

/-- The kernel's `vprintf`. An unknown conversion is printed up to its letter, which is text then. -/
def vprintf (buffer : Mem) : ℕ → List UInt8 → List VaArg → Option (List UInt8)
  | 0, _, _ => none
  | _ + 1, [], _ => some []
  | fuel + 1, c :: format, args =>
    if c ≠ 37 ∨ format.head? = some 37 then do
      let text := if c = 37 then format.tail else format
      let more ← vprintf buffer fuel (text.dropWhile (· ≠ 37)) args
      some (c :: text.takeWhile (· ≠ 37) ++ more)
    else
      let alignLeft : Bool := format.head? = some 45
      let rest := if alignLeft then format.tail else format
      let width := (rest.takeWhile isDigit).foldl (fun w d => w * 10 + (d.toNat - 48)) 0
      let mods := rest.dropWhile isDigit
      match mods.dropWhile (· = 108), args with
      | [], _ => some (c :: format)
      | type :: rest, args =>
        if isConversion type then
          match args with
          | [] => none
          | a :: args => do
            let out ← convert buffer alignLeft width (mods.takeWhile (· = 108)).length type a
            let more ← vprintf buffer fuel rest args
            some (out ++ more)
        else do
          let more ← vprintf buffer fuel (type :: rest) args
          some ((c :: format).take (format.length - rest.length) ++ more)

def userConvert (buffer : Mem) (type : UInt8) (a : VaArg) : Option (List UInt8) :=
  let val := a.word.setWidth 32
  if type = 115 then some a.string
  else if type = 100 ∨ type = 105 then
    if val.toInt < 0 then
      (itoa ((-val).signExtend 64).toNat buffer 0 10).map fun m => 45 :: bufferText m
    else (itoa (val.signExtend 64).toNat buffer 0 10).map bufferText
  else if type = 120 then (itoa val.toNat buffer 0 16).map bufferText
  else if type = 112 then (itoa a.word.toNat buffer 0 16).map fun m => [48, 120] ++ bufferText m
  else some [UInt8.ofNat a.word.toNat]

/-- `s`, `d`, `i`, `x`, `p`, `c` -/
def isUserConversion (type : UInt8) : Bool := [115, 100, 105, 120, 112, 99].contains type

/-- `vprintf` of the user library. After a `%` at the end the format is read past its terminator. -/
def userVprintf (buffer : Mem) : ℕ → List UInt8 → List VaArg → Option (List UInt8)
  | 0, _, _ => none
  | _ + 1, [], _ => some []
  | fuel + 1, c :: format, args =>
    if c ≠ 37 then do
      let more ← userVprintf buffer fuel (format.dropWhile (· ≠ 37)) args
      some (c :: format.takeWhile (· ≠ 37) ++ more)
    else
      match format with
      | [] => none
      | type :: rest =>
        if type = 37 then (userVprintf buffer fuel rest args).map (37 :: ·)
        else if isUserConversion type then
          match args with
          | [] => none
          | a :: args => do
            let out ← userConvert buffer type a
            let more ← userVprintf buffer fuel rest args
            some (out ++ more)
        else userVprintf buffer fuel rest args

def atoiLoop : List UInt8 → BitVec 32 → BitVec 32
  | [], res => res
  | c :: str, res =>
    if c < 48 ∨ 57 < c then res else atoiLoop str (res * 10 + BitVec.ofNat 32 (c.toNat - 48))

/-- `atoi`, in wrapping arithmetic. -/
def atoi (str : List UInt8) : BitVec 32 :=
  if str.head? = some 45 then -atoiLoop str.tail 0 else atoiLoop str 0

/-! ## Decimal text -/

def decimal (v : ℤ) : List UInt8 := if v < 0 then 45 :: numeral 10 v.natAbs else numeral 10 v.natAbs

/-- `%d`, with `n` times `l`. -/
def signedFormat (n : ℕ) : List UInt8 := 37 :: (replicate n 108 ++ [100])

theorem takeWhile_bytesAt {m : Mem} {l : List UInt8} (h0 : 0 ∉ l) {a n : ℕ} (h : HasText m a l)
    (hn : l.length < n) : (m.bytesAt a n).takeWhile (· ≠ 0) = l := by
  have hcons (a n : ℕ) : m.bytesAt a (n + 1) = m a :: m.bytesAt (a + 1) n := by
    rw [Nat.add_comm, Mem.bytesAt_add]
    rfl
  induction l generalizing a n with
  | nil =>
    obtain ⟨n, rfl⟩ := Nat.exists_eq_add_of_lt hn
    rw [hcons, takeWhile_cons_of_neg (by simp [show m a = 0 from h])]
  | cons c l ih =>
    obtain ⟨n, rfl⟩ := Nat.exists_eq_add_of_lt hn
    rw [mem_cons, not_or] at h0
    rw [hcons, takeWhile_cons_of_pos (by simpa [h.1] using Ne.symm h0.1), h.1,
      ih h0.2 h.2 (by rw [length_cons]; omega)]

theorem digit_of_mem_numeral {c : UInt8} {v : ℕ} (hc : c ∈ numeral 10 v) : 48 ≤ c ∧ c ≤ 57 := by
  have hchars : ∀ d < 10, 48 ≤ digitChar d ∧ digitChar d ≤ 57 := by decide
  rw [numeral_eq, mem_map] at hc
  obtain ⟨d, hd, rfl⟩ := hc
  exact hchars d (digitList_lt (by decide) d (mem_reverse.mp hd))

theorem bufferText_itoa (buffer : Mem) {v : ℕ} (hv : v < 2 ^ 64) :
    (itoa v buffer 0 10).map bufferText = some (numeral 10 v) := by
  have hlen : (numeral 10 v).length < 64 := by
    have hdigits : (Nat.digits 10 v).length ≤ 20 :=
      (Nat.digits_length_le_iff (by decide) v).mpr (hv.trans (by decide))
    rw [numeral, length_reverse, length_map, digitList]
    split_ifs
    · decide
    · omega
  rw [itoa_eq (by decide) hv (by decide), Option.map_some, bufferText,
    takeWhile_bytesAt (fun h0 => ?_) hasText_written hlen]
  exact absurd (digit_of_mem_numeral h0).1 (by decide)

theorem atoiLoop_numeral {ds : List ℕ} (h : ∀ d ∈ ds, d < 10) (a : ℕ) :
    atoiLoop (ds.map digitChar) (BitVec.ofNat 32 a) =
      BitVec.ofNat 32 (ds.foldl (fun a d => a * 10 + d) a) := by
  have hchars : ∀ d < 10, ¬(digitChar d < 48 ∨ 57 < digitChar d) ∧ (digitChar d).toNat - 48 = d := by
    decide
  induction ds generalizing a with
  | nil => rfl
  | cons d ds ih =>
    obtain ⟨hd, hval⟩ := hchars d (h d mem_cons_self)
    have hstep : BitVec.ofNat 32 a * 10 + BitVec.ofNat 32 d = BitVec.ofNat 32 (a * 10 + d) := by
      rw [BitVec.ofNat_add, BitVec.ofNat_mul]
      rfl
    rw [map_cons, atoiLoop, if_neg hd, hval, hstep, ih fun e he => h e (mem_cons_of_mem _ he)]
    rfl

theorem atoi_decimal (v : ℤ) : atoi (decimal v) = BitVec.ofInt 32 v := by
  have hnat : atoiLoop (numeral 10 v.natAbs) 0 = BitVec.ofNat 32 v.natAbs := by
    have h := @atoiLoop_numeral (digitList 10 v.natAbs).reverse
      (fun d hd => digitList_lt (by decide) d (mem_reverse.mp hd)) 0
    rwa [foldl_digitList, ← numeral_eq] at h
  unfold decimal
  split_ifs with hneg
  · rw [atoi, head?_cons, if_pos rfl, tail_cons, hnat, ← BitVec.ofInt_natCast, ← BitVec.ofInt_neg,
      Int.ofNat_natAbs_of_nonpos hneg.le, Int.neg_neg]
  · have hhead : (numeral 10 v.natAbs).head? ≠ some 45 := fun h =>
      absurd (digit_of_mem_numeral (mem_of_mem_head? h)).1 (by decide)
    rw [atoi, if_neg hhead, hnat, ← BitVec.ofInt_natCast, Int.natAbs_of_nonneg (not_lt.mp hneg)]

theorem toNat_of_nonneg {x : BitVec 64} (h : 0 ≤ x.toInt) : x.toNat = x.toInt.natAbs := by
  rw [BitVec.toInt_eq_toNat_cond] at h ⊢
  split_ifs at h ⊢ <;> omega

theorem toNat_signExtend {val : BitVec 32} (h : 0 ≤ val.toInt) :
    (val.signExtend 64).toNat = val.toInt.natAbs := by
  have hext : (val.signExtend 64).toInt = val.toInt := BitVec.toInt_signExtend_of_le (by decide)
  rw [toNat_of_nonneg (hext ▸ h), hext]

section Print

variable (buffer : Mem) (a : VaArg)

theorem vprintf_signed (n : ℕ) :
    Ends (vprintf buffer · (signedFormat n) [a]) (numeral 10 (a.signed n).toNat) := by
  have htake : (replicate n (108 : UInt8) ++ [100]).takeWhile (· = 108) = replicate n 108 := by simp
  have hdrop : (replicate n (108 : UInt8) ++ [100]).dropWhile (· = 108) = [100] := by simp
  have hfirst : ∀ b : UInt8, b ≠ 108 → b ≠ 100 → (replicate n (108 : UInt8) ++ [100]).head? ≠ some b := by
    intro b h108 h100
    cases n <;> simp [replicate_succ, h108.symm, h100.symm]
  have hdigits : (replicate n (108 : UInt8) ++ [100]).dropWhile isDigit = replicate n 108 ++ [100] := by
    cases n <;> rfl
  have hwidth : (replicate n (108 : UInt8) ++ [100]).takeWhile isDigit = [] := by
    cases n <;> rfl
  have hconv : convert buffer false 0 n 100 a = some (numeral 10 (a.signed n).toNat) := by
    rw [← bufferText_itoa buffer (a.signed n).isLt]
    simp [convert, pad]
  refine ⟨2, fun k hk => ?_⟩
  obtain ⟨k, rfl⟩ := Nat.exists_eq_add_of_le' hk
  change vprintf buffer (k + 2) (signedFormat n) [a] = _
  rw [signedFormat, vprintf, if_neg (by simpa using hfirst 37 (by decide) (by decide))]
  simp only [hfirst 45 (by decide) (by decide), decide_false, Bool.false_eq_true, if_false, hwidth,
    hdigits, htake, hdrop, length_replicate, foldl_nil, hconv]
  simp [isConversion, vprintf]

theorem userVprintf_signed {val : BitVec 32} (hval : a.word.setWidth 32 = val) :
    Ends (userVprintf buffer · [37, 100] [a])
      (if val.toInt < 0 then 45 :: numeral 10 ((-val).signExtend 64).toNat
        else numeral 10 (val.signExtend 64).toNat) := by
  have hneg := bufferText_itoa buffer ((-val).signExtend 64).isLt
  have hpos := bufferText_itoa buffer (val.signExtend 64).isLt
  rw [Option.map_eq_some_iff] at hneg hpos
  obtain ⟨m, hm, htext⟩ := hneg
  obtain ⟨m', hm', htext'⟩ := hpos
  refine ⟨2, fun k hk => ?_⟩
  obtain ⟨k, rfl⟩ := Nat.exists_eq_add_of_le' hk
  split_ifs with h
  · simp [userVprintf, isUserConversion, userConvert, hval, h, hm, htext]
  · simp [userVprintf, isUserConversion, userConvert, hval, h, hm', htext']

theorem vprintf_decimal_iff (n : ℕ) :
    Ends (vprintf buffer · (signedFormat n) [a]) (decimal (a.signed n).toInt) ↔
      0 ≤ (a.signed n).toInt := by
  have hprint := vprintf_signed buffer a n
  constructor
  · intro h
    by_contra hneg
    have h45 : (45 : UInt8) ∈ numeral 10 (a.signed n).toNat := by
      rw [hprint.unique h, decimal, if_pos (not_le.mp hneg)]
      exact mem_cons_self
    exact absurd (digit_of_mem_numeral h45).1 (by decide)
  · intro hpos
    rwa [decimal, if_neg (not_lt.mpr hpos), ← toNat_of_nonneg hpos]

theorem userVprintf_decimal_iff {val : BitVec 32} (hval : a.word.setWidth 32 = val) :
    Ends (userVprintf buffer · [37, 100] [a]) (decimal val.toInt) ↔ val.toInt ≠ -2 ^ 31 := by
  have hprint := userVprintf_signed buffer a hval
  constructor
  · intro h hmin
    obtain rfl : val = BitVec.intMin 32 := BitVec.eq_of_toInt_eq (by rw [hmin]; rfl)
    have hneg : (BitVec.intMin 32).toInt < 0 := by decide
    have habs : (BitVec.intMin 32).toInt.natAbs = 2147483648 := by decide
    have hext : ((-BitVec.intMin 32).signExtend 64).toNat = 18446744071562067968 := by decide
    have htext := hprint.unique h
    rw [decimal, if_pos hneg, if_pos hneg, habs, hext] at htext
    simp [numeral, digitList] at htext
  · intro hmin
    rw [decimal]
    split_ifs at hprint ⊢ with hneg
    · have hne : val ≠ BitVec.intMin 32 := by
        rintro rfl
        exact hmin rfl
      have hminus : (-val).toInt = -val.toInt := BitVec.toInt_neg_of_ne_intMin hne
      rwa [toNat_signExtend (by omega), hminus, Int.natAbs_neg] at hprint
    · rwa [toNat_signExtend (not_lt.mp hneg)] at hprint

end Print

/-- **Signed values as text.** The kernel emits the decimal text of the values that are not negative,
whatever the number of `l`s. The user library emits that of every `int` but the least one, and `atoi` reads
it back. -/
theorem signed_formatting_iff (buffer : Mem) (a : VaArg) :
    (∀ n, Ends (vprintf buffer · (signedFormat n) [a]) (decimal (a.signed n).toInt) ↔
      0 ≤ (a.signed n).toInt) ∧
    ((∃ text, Ends (userVprintf buffer · [37, 100] [a]) text ∧
        text = decimal (a.word.setWidth 32).toInt ∧ (atoi text).toInt = (a.word.setWidth 32).toInt) ↔
      (a.word.setWidth 32).toInt ≠ -2 ^ 31) := by
  refine ⟨vprintf_decimal_iff buffer a, ?_⟩
  rw [← userVprintf_decimal_iff buffer a rfl]
  constructor
  · rintro ⟨text, htext, rfl, -⟩
    exact htext
  · intro h
    exact ⟨_, h, rfl, by rw [atoi_decimal, BitVec.ofInt_toInt]⟩

/-- `%d` of -1 in the kernel: `18446744073709551615`. -/
theorem negative_printed_unsigned : ∃ text, Ends
    (vprintf (fun _ => 0) · (signedFormat 0) [⟨0xFFFFFFFF, none⟩]) text ∧ text =
      [49, 56, 52, 52, 54, 55, 52, 52, 48, 55, 51, 55, 48, 57, 53, 53, 49, 54, 49, 53] ∧
    decimal (VaArg.signed ⟨0xFFFFFFFF, none⟩ 0).toInt = [45, 49] := by
  refine ⟨_, vprintf_signed _ _ _, ?_, ?_⟩
  · have h : (VaArg.signed ⟨0xFFFFFFFF, none⟩ 0).toNat = 18446744073709551615 := by decide
    rw [h]
    simp [numeral, digitList, digitChar]
  · have h : (VaArg.signed ⟨0xFFFFFFFF, none⟩ 0).toInt = -1 := by decide
    rw [h]
    simp [decimal, numeral, digitList, digitChar]

end KeonOS.Libc
