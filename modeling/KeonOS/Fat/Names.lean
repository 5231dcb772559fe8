import Mathlib.Data.List.TakeWhile
import Mathlib.Tactic

/-!
# Names on FAT32

A directory entry has a name of eleven bytes: eight for the base and three for the extension, filled up
with spaces. Three functions write such a name: `create` takes the base before the first dot and the
extension after the last one, `mkdir` has no extension, and `compare_fat_name` takes the extension after
the first dot, if the base is not longer than eight characters.

* **`fat_name_codec_iff`**: when a name that is stored is found again.
-/

namespace KeonOS

open List

/-- The characters `.` and space -/
abbrev dotChar : UInt8 := 46
abbrev spaceChar : UInt8 := 32

/-- `if (c >= 'a' && c <= 'z') c -= 32` -/
def upcase (c : UInt8) : UInt8 := if 97 ≤ c ∧ c ≤ 122 then c - 32 else c

namespace FatName

/-- A field of `n` bytes with the characters `l`, filled up with spaces. -/
def field (n : ℕ) (l : List UInt8) : List UInt8 :=
  (l.take n).map upcase ++ List.replicate (n - l.length) spaceChar

def base (name : List UInt8) : List UInt8 := name.takeWhile (· ≠ dotChar)

def afterFirstDot (name : List UInt8) : List UInt8 := (name.dropWhile (· ≠ dotChar)).tail

/-- The characters after the last dot: `strrchr(name, '.') + 1`. -/
def afterLastDot (name : List UInt8) : List UInt8 := (name.reverse.takeWhile (· ≠ dotChar)).reverse

/-- The name that `FAT32_Directory::create` stores. -/
def created (name : List UInt8) : List UInt8 :=
  field 8 (base name) ++ field 3 (if dotChar ∈ name then afterLastDot name else [])

/-- The name that `FAT32_Directory::mkdir` stores. -/
def madeDir (name : List UInt8) : List UInt8 := field 8 (base name) ++ field 3 []

/-- The extension as `compare_fat_name` reads it: after eight characters, a dot must follow. -/
def searchedExt (name : List UInt8) : List UInt8 :=
  let rest := name.drop (min 8 (base name).length)
  if rest.head? = some dotChar then rest.tail else []

/-- The array `name83` of `compare_fat_name`. -/
def searched (name : List UInt8) : List UInt8 := field 8 (base name) ++ field 3 (searchedExt name)

end FatName

open FatName

/-- The entries of a directory for itself and its parent. -/
def dotName : List UInt8 := dotChar :: List.replicate 10 spaceChar
def dotDotName : List UInt8 := dotChar :: dotChar :: List.replicate 9 spaceChar

def compareFatName (fatName searchName : List UInt8) : Bool :=
  if searchName = [dotChar] then fatName = dotName
  else if searchName = [dotChar, dotChar] then fatName = dotDotName
  else fatName = searched searchName

/-! ## The fields -/

@[simp]
theorem length_field (n : ℕ) (l : List UInt8) : (field n l).length = n := by
  simp only [field, length_append, length_map, length_take, length_replicate]
  omega

theorem base_append (name : List UInt8) :
    ∃ rest, name = base name ++ rest ∧ (rest = [] ∧ dotChar ∉ name ∨
      rest = dotChar :: afterFirstDot name) := by
  refine ⟨name.dropWhile (· ≠ dotChar), takeWhile_append_dropWhile.symm, ?_⟩
  cases h : name.dropWhile (· ≠ dotChar) with
  | nil =>
    refine .inl ⟨rfl, fun hm => ?_⟩
    simpa using dropWhile_eq_nil_iff.mp h dotChar hm
  | cons c rest =>
    have hc := head?_dropWhile_not (fun c => decide (c ≠ dotChar)) name
    rw [h] at hc
    have hc : c = dotChar := by simpa using hc
    rw [afterFirstDot, h, hc]
    exact .inr rfl

theorem searchedExt_eq (name : List UInt8) :
    searchedExt name = if (base name).length ≤ 8 then afterFirstDot name else [] := by
  obtain ⟨rest, hname, hrest⟩ := base_append name
  unfold searchedExt
  by_cases hlen : (base name).length ≤ 8
  · have hdrop : name.drop (min 8 (base name).length) = rest := by
      rw [Nat.min_eq_right hlen]
      exact (congrArg (List.drop (base name).length) hname).trans drop_left
    rw [if_pos hlen]
    simp only [hdrop]
    rcases hrest with ⟨rfl, hno⟩ | rfl
    · have : afterFirstDot name = [] := by
        have hd : name.dropWhile (· ≠ dotChar) = [] := by
          rw [dropWhile_eq_nil_iff]
          exact fun c hc => decide_eq_true fun h => hno (h ▸ hc)
        rw [afterFirstDot, hd]
        rfl
      rw [this]
      rfl
    · simp
  · -- the loop stops in the middle of the base, where there is no dot
    rw [if_neg hlen, Nat.min_eq_left (by omega)]
    have hmem : ∀ c ∈ (base name).drop 8, c ≠ dotChar := fun c hc => by
      simpa using mem_takeWhile_imp (mem_of_mem_drop hc)
    obtain ⟨c, t, hct⟩ : ∃ c t, (base name).drop 8 = c :: t := by
      refine exists_cons_of_ne_nil fun hnil => ?_
      have := congrArg List.length hnil
      rw [length_drop, length_nil] at this
      omega
    have hdrop : name.drop 8 = c :: (t ++ rest) := by
      refine (congrArg (List.drop 8) hname).trans ?_
      rw [drop_append_of_le_length (by omega), hct]
      rfl
    simp only [hdrop, head?_cons]
    rw [if_neg]
    intro h
    exact hmem c (by rw [hct]; exact mem_cons_self) (Option.some.inj h)

/-! ## The codec -/

theorem compareFatName_eq {fatName name : List UInt8} (h1 : name ≠ [dotChar])
    (h2 : name ≠ [dotChar, dotChar]) :
    compareFatName fatName name = true ↔ fatName = searched name := by
  rw [compareFatName, if_neg h1, if_neg h2, decide_eq_true_iff]

theorem field_append_inj {b e e' : List UInt8} :
    field 8 b ++ field 3 e = field 8 b ++ field 3 e' ↔ field 3 e = field 3 e' :=
  append_right_inj _

/-- **When a name that is stored is found again.** For `create`, the characters after the last dot must be
those after the first, or spaces behind more than eight characters; for `mkdir`, only spaces may follow a
dot. -/
theorem fat_name_codec_iff (name : List UInt8) (h1 : name ≠ [dotChar]) (h2 : name ≠ [dotChar, dotChar]) :
    (compareFatName (created name) name = true ↔
      field 3 (if dotChar ∈ name then afterLastDot name else []) =
        field 3 (if (base name).length ≤ 8 then afterFirstDot name else [])) ∧
    (compareFatName (madeDir name) name = true ↔
      field 3 (if (base name).length ≤ 8 then afterFirstDot name else []) =
        List.replicate 3 spaceChar) := by
  rw [compareFatName_eq h1 h2, compareFatName_eq h1 h2, ← searchedExt_eq]
  refine ⟨field_append_inj, field_append_inj.trans ?_⟩
  exact eq_comm

theorem fat_name_codec_iff_readme :
    compareFatName (created "readme.txt".toUTF8.toList) "readme.txt".toUTF8.toList = true := by
  refine (fat_name_codec_iff _ ?_ ?_).1.mpr ?_ <;> decide +kernel

/-- **Names that are not found again**: a file with a long base and an extension, and a directory with an
extension. -/
theorem fat_name_not_found :
    compareFatName (created "longfilename.txt".toUTF8.toList) "longfilename.txt".toUTF8.toList = false ∧
      compareFatName (madeDir "lib.d".toUTF8.toList) "lib.d".toUTF8.toList = false := by
  decide +kernel

end KeonOS
