import Mathlib.Data.List.GetD
import KeonOS.Fs.Resolve

/-!
# The arrays that a path is split into

`vfs_create`, `vfs_mkdir` and `vfs_unlink` copy the two parts of a path into `parent_path[256]` and
`filename[128]`. None of the copies has a bound.

* **`split_arrays_iff`**: the paths that are split so;
* `split_arrays_overflow`: a name of 128 characters.
-/

namespace KeonOS

open List

/-- The index of the last `c` in a string. -/
def strrchr (c : Char) : CStr → Option ℕ
  | [] => none
  | x :: p =>
    match strrchr c p with
    | some i => some (i + 1)
    | none => if x = c then some 0 else none

/-- The array after `strcpy(dst, src)` -/
def strcpy (src : CStr) (dst : ℕ → Char) : ℕ → Char := fun i =>
  if i ≤ src.length then src.getD i '\x00' else dst i

/-- The array after `strncpy(dst, src, n)` -/
def strncpy (src : CStr) (n : ℕ) (dst : ℕ → Char) : ℕ → Char := fun i =>
  if i < n then src.getD i '\x00' else dst i

/-- The two arrays, and the ends of what has been written into them. -/
structure SplitArrays where
  parentPath : ℕ → Char
  parentEnd : ℕ
  filename : ℕ → Char
  filenameEnd : ℕ

/-- The code before `vfs_open(parent_path)`, on arrays with any contents. -/
def splitArrays (path : CStr) (parentPath filename : ℕ → Char) : SplitArrays :=
  match strrchr '/' path with
  | none => ⟨strcpy ['.'] parentPath, 2, strcpy path filename, path.length + 1⟩
  | some 0 => ⟨strcpy ['/'] parentPath, 2, strcpy (path.drop 1) filename, (path.drop 1).length + 1⟩
  | some parentLen =>
    ⟨Function.update (strncpy path parentLen parentPath) parentLen '\x00', parentLen + 1,
      strcpy (path.drop (parentLen + 1)) filename, (path.drop (parentLen + 1)).length + 1⟩

/-- The first `n` characters of an array are a string with its terminator. -/
def HoldsString (m : ℕ → Char) (n : ℕ) (str : CStr) : Prop :=
  str.length < n ∧ '\x00' ∉ str ∧ ∀ i ≤ str.length, m i = str.getD i '\x00'

def Spells (parent name path : CStr) : Prop :=
  path = parent ++ '/' :: name ∨ parent = ['/'] ∧ path = '/' :: name ∨ parent = ['.'] ∧ path = name

/-- The writes stay inside the arrays, and these hold strings that spell the path. -/
def SplitOk (path : CStr) : Prop := ∀ parentPath filename : ℕ → Char,
  (splitArrays path parentPath filename).parentEnd ≤ 256 ∧
    (splitArrays path parentPath filename).filenameEnd ≤ 128 ∧
    ∃ parent name, HoldsString (splitArrays path parentPath filename).parentPath 256 parent ∧
      HoldsString (splitArrays path parentPath filename).filename 128 name ∧ Spells parent name path

variable {path dir name : CStr}

theorem strrchr_eq_none {c : Char} (h : c ∉ path) : strrchr c path = none := by
  induction path with
  | nil => rfl
  | cons x p ih =>
    rw [mem_cons, not_or] at h
    rw [strrchr, ih h.2]
    exact if_neg (Ne.symm h.1)

theorem strrchr_append {c : Char} (h : c ∉ name) : strrchr c (dir ++ c :: name) = some dir.length := by
  induction dir with
  | nil =>
    rw [nil_append, strrchr, strrchr_eq_none h]
    exact if_pos rfl
  | cons x p ih => rw [cons_append, strrchr, ih, length_cons]

theorem holdsString_strcpy {n : ℕ} (hlen : path.length < n) (h0 : '\x00' ∉ path) (m : ℕ → Char) :
    HoldsString (strcpy path m) n path :=
  ⟨hlen, h0, fun _ hi => if_pos hi⟩

theorem splitArrays_eq (h0 : '\x00' ∉ path) (m m' : ℕ → Char) :
    (splitArrays path m m').parentEnd = (splitPath path).1.length + 1 ∧
      (splitArrays path m m').filenameEnd = (splitPath path).2.length + 1 ∧
      (∀ n, (splitPath path).1.length < n →
        HoldsString (splitArrays path m m').parentPath n (splitPath path).1) ∧
      ∀ n, (splitPath path).2.length < n →
        HoldsString (splitArrays path m m').filename n (splitPath path).2 := by
  by_cases hmem : '/' ∈ path
  · obtain ⟨dir, hpath, hno, hdir⟩ := splitPath_append hmem
    generalize (splitPath path).2 = name at hpath hno ⊢
    rw [hdir]
    have hdrop : path.drop (dir.length + 1) = name := by
      rw [hpath, drop_append, Nat.add_sub_cancel_left, drop_of_length_le (by omega)]
      rfl
    have hsplit : strrchr '/' path = some dir.length := by
      rw [hpath]
      exact strrchr_append hno
    have hname : '\x00' ∉ name := fun h => h0 (hpath ▸ by simp [h])
    have hparent : '\x00' ∉ dir := fun h => h0 (hpath ▸ by simp [h])
    rw [splitArrays, hsplit]
    cases hd : dir with
    | nil =>
      rw [hd] at hdrop
      simp only [length_nil, Nat.zero_add] at hdrop ⊢
      rw [hdrop]
      exact ⟨rfl, rfl, fun n hn => holdsString_strcpy hn (by decide) m,
        fun n hn => holdsString_strcpy hn hname m'⟩
    | cons x xs =>
      rw [hd] at hpath hdrop hparent
      simp only [length_cons] at hdrop ⊢
      rw [if_neg (cons_ne_nil x xs), hdrop]
      refine ⟨rfl, rfl, fun n hn => ⟨hn, hparent, fun i hi => ?_⟩,
        fun n hn => holdsString_strcpy hn hname m'⟩
      rw [length_cons] at hi
      rcases hi.eq_or_lt with rfl | hi
      · rw [Function.update_self]
        exact (getD_eq_default _ _ le_rfl).symm
      · rw [Function.update_of_ne hi.ne, strncpy, if_pos hi, hpath, getD_append _ _ _ _ hi]
  · rw [splitArrays, strrchr_eq_none hmem, splitPath, if_pos hmem]
    have hdot : '\x00' ∉ ['.'] := by decide
    exact ⟨rfl, rfl, fun n hn => holdsString_strcpy hn hdot m,
      fun n hn => holdsString_strcpy hn h0 m'⟩

/-- **The paths whose parts fit into the arrays.** -/
theorem split_arrays_iff (h0 : '\x00' ∉ path) :
    SplitOk path ↔ (splitPath path).1.length ≤ 255 ∧ (splitPath path).2.length ≤ 127 := by
  constructor
  · intro h
    obtain ⟨hparent, hname, -⟩ := h (fun _ => 'x') fun _ => 'x'
    obtain ⟨h1, h2, -⟩ := splitArrays_eq h0 (fun _ => 'x') fun _ => 'x'
    omega
  rintro ⟨hparent, hname⟩ m m'
  obtain ⟨h1, h2, hold1, hold2⟩ := splitArrays_eq h0 m m'
  refine ⟨by omega, by omega, _, _, hold1 256 (by omega), hold2 128 (by omega), ?_⟩
  by_cases hmem : '/' ∈ path
  · obtain ⟨dir, hpath, -, hdir⟩ := splitPath_append hmem
    rw [hdir]
    split_ifs with hd
    · rw [hd] at hpath
      exact .inr (.inl ⟨rfl, hpath⟩)
    · exact .inl hpath
  · rw [splitPath, if_pos hmem]
    exact .inr (.inr ⟨rfl, rfl⟩)

theorem split_arrays_short : SplitOk "/mnt/a.txt".toList :=
  (split_arrays_iff (by decide)).mpr (by decide)

/-- A path of 129 characters, as a system call can give it, whose last component has 128. -/
theorem split_arrays_overflow :
    ('/' :: List.replicate 128 'a').length ≤ 255 ∧ ¬ SplitOk ('/' :: List.replicate 128 'a') := by
  refine ⟨by simp, fun h => ?_⟩
  have h0 : '\x00' ∉ '/' :: List.replicate 128 'a' := by simp
  have hname : (splitPath ('/' :: List.replicate 128 'a')).2.length = 128 := by decide +kernel
  have hend := (h (fun _ => 'x') fun _ => 'x').2.1
  rw [(splitArrays_eq h0 _ _).2.1, hname] at hend
  omega

end KeonOS
