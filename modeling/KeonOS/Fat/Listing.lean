import Mathlib
import KeonOS.Fat.Unlink

/-!
# FAT32: listing and looking up

`FAT32_Directory::readdir` writes out the name of an entry, and `finddir` compares a name with the
entries. For a short name, `readdir` leaves out every space and `finddir` builds the eleven bytes again;
for a long name, both put the characters together, `readdir` without a check for `0xFFFF` and starting
anew at a volume label.

* `listed`, **`readdir_eq`**: it returns the entries of the short slots, one after the other;
* `ShortCodec`, **`compare_shortName_iff`**: the short names that are found as they are listed;
* **`listing_agrees_iff`**: when the names that are listed lead to their entries.
-/

namespace KeonOS

open FatGeometry FatName List

/-! ## `readdir` -/

/-- Put the characters of the long-name entry `i` into the `lfn_name` of `readdir`. -/
def lfnStoreAll (m : Mem) (i : ℕ) (lfn : Mem) : Mem :=
  let sequence := (entFirst m i).toNat % 64
  if sequence = 0 ∨ 240 ≤ (sequence - 1) * 13 then lfn
  else
    fun x =>
      match lfnPlaces[x - (sequence - 1) * 13]? with
      | some p =>
        let c := m.readLE (i * dirEntryBytes + p) 2
        if (sequence - 1) * 13 ≤ x ∧ c ≠ 0 then UInt8.ofNat c else lfn x
      | none => lfn x

/-- The characters that `readdir` writes for the eleven bytes, without the spaces. -/
def dirChars (name : List UInt8) (attr : UInt8) : List UInt8 := (name.take 8).filter (· ≠ spaceChar) ++
    if attr &&& attrVolume = 0 ∧ name.getD 8 0 ≠ spaceChar then
      dotChar :: (name.drop 8).filter (· ≠ spaceChar)
    else if attr &&& attrVolume ≠ 0 then (name.drop 8).filter (· ≠ spaceChar)
    else []

/-- The name of entry `i` in `dirent`: a string ends at the first zero. -/
def direntName (m : Mem) (i : ℕ) (lfn : Mem) : List UInt8 :=
  if lfn 0 ≠ 0 then (lfnString lfn).take 127
  else (dirChars (entName m i) (entAttr m i)).takeWhile (· ≠ 0)

/-- `vfs_dirent`, as far as `readdir` sets it. -/
structure FatDirent where
  name : List UInt8
  inode : ℕ
deriving DecidableEq, Repr

/-- The scan of one cluster: it goes on, has met the end of the directory, or has found the entry. -/
inductive DirScan
  | next (logical : ℕ) (lfn : Mem)
  | stop
  | found (e : FatDirent)

def readdirScan (m : Mem) (index : ℕ) : List ℕ → ℕ → Mem → DirScan
  | [], logical, lfn => .next logical lfn
  | i :: is, logical, lfn =>
    if entFirst m i = 0 then .stop
    else if entFirst m i = deletedMark then readdirScan m index is logical fun _ => 0
    else if entAttr m i &&& attrVolume ≠ 0 ∧ entAttr m i ≠ attrLfn then
      readdirScan m index is logical fun _ => 0
    else if entAttr m i = attrLfn then readdirScan m index is logical (lfnStoreAll m i lfn)
    else if logical = index then .found ⟨direntName m i lfn, entCluster m i⟩
    else readdirScan m index is ((logical + 1) % 2 ^ 32) fun _ => 0

namespace Fat32

variable (fs : Fat32)

def readdirLoop (index : ℕ) (d : FatDisk) : ℕ → ℕ → ℕ → Mem → Option (Option FatDirent)
  | 0, _, _, _ => none
  | fuel + 1, cluster, logical, lfn =>
    if cluster < endMark ∧ cluster ≠ 0 then
      match readdirScan (fs.clusterBytes d cluster) index (List.range fs.dirSlots) logical lfn with
      | .stop => some none
      | .found e => some (some e)
      | .next logical lfn => readdirLoop index d fuel (fs.getNextCluster d cluster) logical lfn
    else some none

/-- `FAT32_Directory::readdir(index)` of the directory at `dir` -/
def readdir (fuel dir index : ℕ) (d : FatDisk) : Option (Option FatDirent) :=
  fs.readdirLoop index d fuel dir 0 fun _ => 0

end Fat32

/-! ## The slots that are listed -/

variable {h logical n : ℕ} {l : List UInt8}

section Slots

variable {m : Mem} {index : ℕ}

/-- The `lfn_name` of `readdir` before the slot `g`, when no end marker is before it. -/
def dirLfnBefore (m : Mem) : ℕ → Mem
  | 0 => fun _ => 0
  | g + 1 => if IsLong m g then lfnStoreAll m g (dirLfnBefore m g) else fun _ => 0

/-- The short slots, of `k` from `g` on, before an end marker. -/
def listedFrom (m : Mem) : ℕ → ℕ → List ℕ
  | _, 0 => []
  | g, k + 1 =>
    if entFirst m g = 0 then []
    else if IsShort m g then g :: listedFrom m (g + 1) k
    else listedFrom m (g + 1) k

/-- The slots that are listed of a directory of `n` slots. -/
def listed (m : Mem) (n : ℕ) : List ℕ := listedFrom m 0 n

def listedName (m : Mem) (g : ℕ) : List UInt8 := direntName m g (dirLfnBefore m g)

def listedDirent (m : Mem) (g : ℕ) : FatDirent := ⟨listedName m g, entCluster m g⟩

theorem readdirScan_cons (g : ℕ) (is : List ℕ) (logical : ℕ) :
    readdirScan m index (g :: is) logical (dirLfnBefore m g) =
      if entFirst m g = 0 then .stop
      else if IsShort m g then
        if logical = index then .found (listedDirent m g)
        else readdirScan m index is ((logical + 1) % 2 ^ 32) (dirLfnBefore m (g + 1))
      else readdirScan m index is logical (dirLfnBefore m (g + 1)) := by
  rw [readdirScan, dirLfnBefore]
  by_cases hzero : entFirst m g = 0
  · rw [if_pos hzero, if_pos hzero]
  by_cases hdel : entFirst m g = deletedMark
  · have hshort : ¬IsShort m g := fun h => h.1.2 hdel
    have hlong : ¬IsLong m g := fun h => h.1.2 hdel
    rw [if_pos hdel, if_neg hshort, if_neg hlong]
  rw [if_neg hdel]
  by_cases hvol : entAttr m g &&& attrVolume ≠ 0 ∧ entAttr m g ≠ attrLfn
  · have hshort : ¬IsShort m g := fun h => h.2.1 hvol
    have hlong : ¬IsLong m g := fun h => hvol.2 h.2
    rw [if_pos hvol, if_neg hshort, if_neg hlong]
  rw [if_neg hvol]
  by_cases hlfn : entAttr m g = attrLfn
  · have hshort : ¬IsShort m g := fun h => h.2.2 hlfn
    have hlong : IsLong m g := ⟨⟨hzero, hdel⟩, hlfn⟩
    rw [if_pos hlfn, if_neg hshort, if_pos hlong]
  · have hshort : IsShort m g := ⟨⟨hzero, hdel⟩, hvol, hlfn⟩
    have hlong : ¬IsLong m g := fun h => hlfn h.2
    rw [if_neg hlfn, if_pos hshort, if_neg hlong]
    rfl

variable {g i : ℕ} {m' : Mem}

theorem mem_listedFrom {k : ℕ} : h ∈ listedFrom m g k ↔
    (g ≤ h ∧ h < g + k) ∧ IsShort m h ∧ ∀ e, g ≤ e → e < h → entFirst m e ≠ 0 := by
  induction k generalizing g with
  | zero =>
    refine iff_of_false not_mem_nil fun h => ?_
    omega
  | succ k ih =>
    rw [listedFrom]
    by_cases hzero : entFirst m g = 0
    · rw [if_pos hzero]
      refine iff_of_false not_mem_nil fun ⟨hle, hshort, hall⟩ => ?_
      rcases hle.1.eq_or_lt with rfl | hlt
      · exact hshort.1.1 hzero
      · exact hall g le_rfl hlt hzero
    have hrest : h ∈ listedFrom m (g + 1) k ↔
        (g < h ∧ h < g + (k + 1)) ∧ IsShort m h ∧ ∀ e, g ≤ e → e < h → entFirst m e ≠ 0 := by
      rw [ih]
      refine and_congr (by omega) (and_congr_right fun _ => ⟨fun hall e h1 h2 => ?_,
        fun hall e h1 h2 => hall e (by omega) h2⟩)
      rcases h1.eq_or_lt with rfl | hlt
      · exact hzero
      · exact hall e hlt h2
    split_ifs with hshort
    · rw [mem_cons, hrest]
      constructor
      · rintro (rfl | ⟨hle, hrest⟩)
        · exact ⟨⟨le_rfl, by omega⟩, hshort, fun e h1 h2 => by omega⟩
        · exact ⟨⟨by omega, by omega⟩, hrest⟩
      · rintro ⟨hle, hrest⟩
        rcases hle.1.eq_or_lt with rfl | hlt
        · exact .inl rfl
        · exact .inr ⟨⟨hlt, hle.2⟩, hrest⟩
    · rw [hrest]
      refine ⟨fun ⟨hle, hrest⟩ => ⟨⟨by omega, hle.2⟩, hrest⟩, fun ⟨hle, hs, hall⟩ => ⟨⟨?_, hle.2⟩, hs, hall⟩⟩
      exact lt_of_le_of_ne hle.1 fun heq => hshort (heq ▸ hs)

theorem listedFrom_add (g k l : ℕ) : listedFrom m g (k + l) =
    listedFrom m g k ++ if ∀ e ∈ List.range' g k, entFirst m e ≠ 0 then listedFrom m (g + k) l else [] := by
  induction k generalizing g with
  | zero => simp [listedFrom]
  | succ k ih =>
    rw [Nat.succ_add, listedFrom, listedFrom, List.range'_succ, ih (g + 1),
      show g + (k + 1) = g + 1 + k by omega]
    by_cases hzero : entFirst m g = 0
    · rw [if_pos hzero, if_pos hzero, if_neg, append_nil]
      exact fun h => h g mem_cons_self hzero
    have hcons : (∀ e ∈ g :: List.range' (g + 1) k, entFirst m e ≠ 0) ↔
        ∀ e ∈ List.range' (g + 1) k, entFirst m e ≠ 0 := by
      rw [forall_mem_cons, and_iff_right hzero]
    simp only [if_neg hzero, hcons]
    split_ifs <;> rfl

theorem readdirScan_eq (hindex : index < 2 ^ 32) (hle : logical ≤ index) (g k : ℕ) :
    readdirScan m index (List.range' g k) logical (dirLfnBefore m g) =
      match (listedFrom m g k)[index - logical]? with
      | some h => .found (listedDirent m h)
      | none =>
        if ∀ e ∈ List.range' g k, entFirst m e ≠ 0 then
          .next (logical + (listedFrom m g k).length) (dirLfnBefore m (g + k))
        else .stop := by
  induction k generalizing g logical with
  | zero => simp [listedFrom, readdirScan]
  | succ k ih =>
    rw [List.range'_succ, readdirScan_cons, listedFrom, show g + (k + 1) = g + 1 + k by omega]
    by_cases hzero : entFirst m g = 0
    · rw [if_pos hzero, if_pos hzero, getElem?_nil, if_neg fun h => h g mem_cons_self hzero]
    have hcons : (∀ e ∈ g :: List.range' (g + 1) k, entFirst m e ≠ 0) ↔
        ∀ e ∈ List.range' (g + 1) k, entFirst m e ≠ 0 := by
      rw [forall_mem_cons, and_iff_right hzero]
    simp only [if_neg hzero, hcons]
    by_cases hshort : IsShort m g
    · rw [if_pos hshort, if_pos hshort]
      by_cases heq : logical = index
      · rw [if_pos heq, heq, Nat.sub_self, getElem?_cons_zero]
      · rw [if_neg heq, Nat.mod_eq_of_lt (by omega), ih (by omega),
          show index - logical = index - (logical + 1) + 1 by omega, getElem?_cons_succ,
          length_cons, show logical + ((listedFrom m (g + 1) k).length + 1) =
            logical + 1 + (listedFrom m (g + 1) k).length by omega]
    · rw [if_neg hshort, if_neg hshort, ih hle]

theorem SameSlot.lfnStoreAll_eq (h : SameSlot m i m' g) (lfn : Mem) :
    lfnStoreAll m i lfn = lfnStoreAll m' g lfn := by
  rw [lfnStoreAll, lfnStoreAll, h.first]
  split_ifs
  · rfl
  funext x
  cases hp : lfnPlaces[x - ((entFirst m' g).toNat % 64 - 1) * 13]? with
  | none => rfl
  | some p =>
    dsimp only
    rw [h.lfnChar (mem_of_getElem? hp)]

theorem SameSlot.direntName_eq (h : SameSlot m i m' g) (lfn : Mem) :
    direntName m i lfn = direntName m' g lfn := by
  rw [direntName, direntName, h.name_eq, h.attr]

theorem readdirScan_map {a : ℕ} {is : List ℕ} (h : ∀ i ∈ is, SameSlot m i m' (a + i))
    (logical : ℕ) (lfn : Mem) :
    readdirScan m' index (is.map (a + ·)) logical lfn = readdirScan m index is logical lfn := by
  induction is generalizing logical lfn with
  | nil => rfl
  | cons i is ih =>
    have hi := h i mem_cons_self
    have hrest := ih fun j hj => h j (mem_cons_of_mem i hj)
    rw [map_cons, readdirScan, readdirScan, ← hi.first, ← hi.attr, ← hi.lfnStoreAll_eq,
      ← hi.direntName_eq, ← hi.cluster]
    split_ifs <;> first | rfl | exact hrest _ _

end Slots

section Directory

variable {fs : Fat32} {N dir : ℕ} {d : FatDisk} {cs : List ℕ} (hg : FatGeometry fs N)
  (hcs : fs.Chain N d dir cs)
include hg hcs

variable {index fuel : ℕ}

theorem readdirLoop_eq (hindex : index < 2 ^ 32) {j cluster : ℕ}
    (hat : TableChain.At endMark cs j cluster) (hfuel : cs.length < fuel + j) (hle : logical ≤ index) :
    fs.readdirLoop index d fuel cluster logical (dirLfnBefore (fs.fileByte d cs) (j * fs.dirSlots)) =
      some ((listedFrom (fs.fileByte d cs) (j * fs.dirSlots)
        ((cs.length - j) * fs.dirSlots))[index - logical]?.map (listedDirent (fs.fileByte d cs))) := by
  induction fuel generalizing j cluster logical with
  | zero => exact absurd hat.le (by omega)
  | succ fuel ih =>
    rcases hat with hj | ⟨rfl, hend⟩
    rotate_left
    · rw [Fat32.readdirLoop, if_neg (by omega), Nat.sub_self, Nat.zero_mul]
      rfl
    have hlt := (List.getElem?_eq_some_iff.mp hj).1
    have hmarks := hg.marks
    obtain ⟨hk2, hkN, -⟩ := hcs.used_at hj
    have hrange : (List.range fs.dirSlots).map (j * fs.dirSlots + ·) =
        List.range' (j * fs.dirSlots) fs.dirSlots := (List.range'_eq_map_range ..).symm
    have hslots : (cs.length - j) * fs.dirSlots = fs.dirSlots + (cs.length - (j + 1)) * fs.dirSlots := by
      rw [show cs.length - j = cs.length - (j + 1) + 1 by omega, Nat.succ_mul, Nat.add_comm]
    rw [Fat32.readdirLoop, if_pos ⟨by omega, by omega⟩, ← readdirScan_map (cluster_scan hg hcs j hj),
      hrange, readdirScan_eq hindex hle, hslots, listedFrom_add,
      show j * fs.dirSlots + fs.dirSlots = (j + 1) * fs.dirSlots from (Nat.succ_mul _ _).symm]
    generalize listedFrom (fs.fileByte d cs) (j * fs.dirSlots) fs.dirSlots = l
    cases hget : l[index - logical]? with
    | some h =>
      rw [getElem?_append_left (List.getElem?_eq_some_iff.mp hget).1, hget]
      rfl
    | none =>
      have hlen := getElem?_eq_none_iff.mp hget
      rw [getElem?_append_right hlen]
      split_ifs with hall
      · dsimp only
        rw [ih (hcs.at_succ hj) (by omega) (by omega),
          show index - (logical + l.length) = index - logical - l.length by omega]
      · rfl

theorem readdir_eq (hdir : dir ≠ 0) (hfuel : cs.length < fuel) (hindex : index < 2 ^ 32) :
    fs.readdir fuel dir index d = some ((listed (fs.fileByte d cs) (cs.length * fs.dirSlots))[index]?.map
      (listedDirent (fs.fileByte d cs))) := by
  have h : fs.readdirLoop index d fuel dir 0 (dirLfnBefore (fs.fileByte d cs) (0 * fs.dirSlots)) = _ :=
    readdirLoop_eq hg hcs hindex (.inl (chain_first hcs hdir)) hfuel (Nat.zero_le index)
  rwa [Nat.zero_mul, Nat.sub_zero] at h

end Directory

/-! ## Short names -/

/-- The spaces of a field are at its end. -/
def TrailingSpaces (l : List UInt8) : Prop :=
  l = l.filter (· ≠ spaceChar) ++ List.replicate (l.length - (l.filter (· ≠ spaceChar)).length) spaceChar

instance (l : List UInt8) : Decidable (TrailingSpaces l) := by unfold TrailingSpaces; infer_instance

/-- Eleven bytes that are found under the name that is listed for them: those without a zero, a small
letter or a dot in the base, with spaces only at the ends, and the two dot entries. -/
def ShortCodec (name : List UInt8) : Prop := name = dotName ∨ name = dotDotName ∨
    (∀ c ∈ name, c ≠ 0 ∧ upcase c = c) ∧ dotChar ∉ name.take 8 ∧
      TrailingSpaces (name.take 8) ∧ TrailingSpaces (name.drop 8) ∧
      ¬((name.take 8).filter (· ≠ spaceChar) = [] ∧ (name.drop 8).filter (· ≠ spaceChar) = [dotChar])

instance (name : List UInt8) : Decidable (ShortCodec name) := by unfold ShortCodec; infer_instance

theorem upcase_cases (c : UInt8) :
    upcase c = c ∨ (97 ≤ c.toNat ∧ c.toNat ≤ 122) ∧ (upcase c).toNat = c.toNat - 32 := by
  unfold upcase
  split_ifs with h
  · have hle : (32 : UInt8) ≤ c := UInt8.le_trans (show (32 : UInt8) ≤ 97 by decide) h.1
    exact .inr ⟨h, UInt8.toNat_sub_of_le _ _ hle⟩
  · exact .inl rfl

theorem upcase_eq_iff {c x : UInt8} (hx : x.toNat < 65 ∨ 122 < x.toNat) : upcase c = x ↔ c = x := by
  rcases upcase_cases c with h | ⟨hc, h⟩
  · rw [h]
  refine iff_of_false (fun heq => ?_) fun heq => ?_
  · rw [heq] at h
    omega
  · rw [heq] at hc
    omega

theorem upcase_upcase (c : UInt8) : upcase (upcase c) = upcase c := by
  rcases upcase_cases (upcase c) with h | ⟨hc, -⟩
  · exact h
  · rcases upcase_cases c with h | ⟨hc', h⟩
    · rw [h, h]
    · omega

theorem filter_append_spaces (h : spaceChar ∉ l) (k : ℕ) :
    (l ++ List.replicate k spaceChar).filter (· ≠ spaceChar) = l := by
  rw [filter_append, filter_eq_self.mpr fun c hc => ?_, filter_replicate]
  · simp
  · have hne : c ≠ spaceChar := fun heq => h (heq ▸ hc)
    simpa using hne

theorem filter_field (h : spaceChar ∉ l) :
    (field n l).filter (· ≠ spaceChar) = (l.take n).map upcase := by
  refine filter_append_spaces (fun hmem => ?_) _
  obtain ⟨c, hc, heq⟩ := List.mem_map.mp hmem
  exact h ((upcase_eq_iff (by decide)).mp heq ▸ mem_of_mem_take hc)

theorem trailingSpaces_field (h : spaceChar ∉ l) : TrailingSpaces (field n l) := by
  unfold TrailingSpaces
  rw [filter_field h, length_field, length_map, length_take, field]
  congr 2
  omega

theorem field_filter (h : TrailingSpaces l) (hup : ∀ c ∈ l, upcase c = c) :
    field l.length (l.filter (· ≠ spaceChar)) = l := by
  have hlen := length_filter_le (fun c => decide (c ≠ spaceChar)) l
  have hmap : (l.filter (· ≠ spaceChar)).map upcase = l.filter (· ≠ spaceChar) :=
    (map_congr_left fun c hc => hup c (mem_of_mem_filter hc)).trans (map_id' _)
  rw [field, take_of_length_le hlen, hmap]
  exact h.symm

theorem searchedExt_append {b e : List UInt8} (hb : dotChar ∉ b) (hlen : b.length ≤ 8) :
    base (b ++ if e = [] then [] else dotChar :: e) = b ∧
      searchedExt (b ++ if e = [] then [] else dotChar :: e) = e := by
  have hall : ∀ c ∈ b, decide (c ≠ dotChar) = true := fun c hc =>
    decide_eq_true fun heq => hb (heq ▸ hc)
  have hbase : base (b ++ if e = [] then [] else dotChar :: e) = b := by
    rw [base, takeWhile_append_of_pos hall]
    split_ifs
    · simp
    · simp
  refine ⟨hbase, ?_⟩
  rw [searchedExt_eq, hbase, if_pos hlen, afterFirstDot, dropWhile_append_of_pos hall]
  split_ifs with he
  · rw [he]
    rfl
  · simp

section Short

variable {name : List UInt8} {attr : UInt8}

theorem spaceChar_notMem_dirChars : spaceChar ∉ dirChars name attr := by
  have hfilter : ∀ l : List UInt8, spaceChar ∉ l.filter (· ≠ spaceChar) := fun l h =>
    of_decide_eq_true (mem_filter.mp h).2 rfl
  rw [dirChars, mem_append, not_or]
  refine ⟨hfilter _, ?_⟩
  split_ifs
  · rw [mem_cons, not_or]
    exact ⟨by decide, hfilter _⟩
  · exact hfilter _
  · exact not_mem_nil

theorem dirChars_eq (hlen : name.length = 11) (hattr : attr &&& attrVolume = 0)
    (hext : TrailingSpaces (name.drop 8)) :
    dirChars name attr = (name.take 8).filter (· ≠ spaceChar) ++
      if (name.drop 8).filter (· ≠ spaceChar) = [] then []
      else dotChar :: (name.drop 8).filter (· ≠ spaceChar) := by
  have hfirst : (name.drop 8).head? = some (name.getD 8 0) := by
    rw [head?_drop, getD_eq_getElem?_getD, getElem?_eq_getElem (by omega)]
    rfl
  have hiff : name.getD 8 0 ≠ spaceChar ↔ (name.drop 8).filter (· ≠ spaceChar) ≠ [] := by
    constructor
    · intro hne hnil
      exact filter_eq_nil_iff.mp hnil _ (mem_of_mem_head? hfirst) (decide_eq_true hne)
    intro hne heq
    obtain ⟨c, l, hcl⟩ := exists_cons_of_ne_nil hne
    have hc : c ∈ (name.drop 8).filter (· ≠ spaceChar) := by rw [hcl]; exact mem_cons_self
    rw [hext, hcl, cons_append, head?_cons, Option.some.injEq, heq] at hfirst
    simpa [hfirst] using (mem_filter.mp hc).2
  rw [dirChars]
  by_cases hnil : (name.drop 8).filter (· ≠ spaceChar) = []
  · have hsp : ¬ name.getD 8 0 ≠ spaceChar := fun h => hiff.mp h hnil
    rw [if_pos hnil, if_neg fun h => hsp h.2, if_neg fun h => h hattr]
  · rw [if_neg hnil, if_pos ⟨hattr, hiff.mpr hnil⟩]

theorem compare_shortName_iff (hlen : name.length = 11) (hattr : attr &&& attrVolume = 0) :
    compareFatName name ((dirChars name attr).takeWhile (· ≠ 0)) = true ↔ ShortCodec name := by
  have htake : (name.take 8).length = 8 := by rw [length_take]; omega
  have hdrop : (name.drop 8).length = 3 := by rw [length_drop]; omega
  constructor
  · intro h
    generalize hchars : (dirChars name attr).takeWhile (· ≠ 0) = nm at h
    have hmem : ∀ c ∈ nm, c ∈ dirChars name attr := fun c hc =>
      ( takeWhile_prefix _).subset (hchars ▸ hc)
    have hzero : ∀ c ∈ nm, c ≠ 0 := by
      intro c hc
      rw [← hchars] at hc
      simpa using mem_takeWhile_imp hc
    have hspace : spaceChar ∉ nm := fun hc => spaceChar_notMem_dirChars (hmem _ hc)
    by_cases hdot : nm = [dotChar]
    · rw [hdot, compareFatName, if_pos rfl, decide_eq_true_iff] at h
      exact .inl h
    by_cases hdots : nm = [dotChar, dotChar]
    · rw [hdots, compareFatName, if_neg (by decide), if_pos rfl, decide_eq_true_iff] at h
      exact .inr (.inl h)
    rw [compareFatName_eq hdot hdots, searched] at h
    have hbase : base nm ⊆ nm := ( takeWhile_prefix _).subset
    have hext : searchedExt nm ⊆ nm := by
      unfold searchedExt
      dsimp only
      split_ifs
      · exact fun c hc => mem_of_mem_drop (mem_of_mem_tail hc)
      · exact nil_subset _
    have ht8 : name.take 8 = field 8 (base nm) := by
      rw [h, take_left' (length_field 8 _)]
    have hd8 : name.drop 8 = field 3 (searchedExt nm) := by
      rw [h, drop_left' (length_field 8 _)]
    have hfield : ∀ n l, l ⊆ nm → ∀ c ∈ field n l, c ≠ 0 ∧ upcase c = c := by
      intro n l hl c hc
      rcases mem_append.mp hc with hc | hc
      · obtain ⟨x, hx, rfl⟩ := List.mem_map.mp hc
        exact ⟨fun h0 => hzero x (hl (mem_of_mem_take hx)) ((upcase_eq_iff (by decide)).mp h0),
          upcase_upcase x⟩
      · rw [eq_of_mem_replicate hc]
        decide
    have htrail : TrailingSpaces (name.drop 8) := by
      rw [hd8]
      exact trailingSpaces_field fun hc => hspace (hext hc)
    refine .inr (.inr ⟨fun c hc => ?_, ?_, ?_, htrail, fun hdotOnly => ?_⟩)
    · rw [h] at hc
      rcases mem_append.mp hc with hc | hc
      · exact hfield 8 _ hbase c hc
      · exact hfield 3 _ hext c hc
    · rw [ht8]
      intro hc
      rcases mem_append.mp hc with hc | hc
      · obtain ⟨x, hx, heq⟩ := List.mem_map.mp hc
        have hx' := (upcase_eq_iff (by decide)).mp heq
        have := mem_takeWhile_imp (mem_of_mem_take hx)
        simp [hx'] at this
      · exact absurd (eq_of_mem_replicate hc) (by decide)
    · rw [ht8]
      exact trailingSpaces_field fun hc => hspace (hbase hc)
    · refine hdots ?_
      rw [← hchars, dirChars_eq hlen hattr htrail, hdotOnly.1, hdotOnly.2]
      decide
  · rintro (rfl | rfl | ⟨hall, hdot, hbase, hext, hone⟩)
    · have hchars : dirChars dotName attr = [dotChar] := by
        rw [dirChars_eq hlen hattr (by decide)]
        decide
      rw [hchars]
      decide
    · have hchars : dirChars dotDotName attr = [dotChar, dotChar] := by
        rw [dirChars_eq hlen hattr (by decide)]
        decide
      rw [hchars]
      decide
    have hchars := dirChars_eq hlen hattr hext
    have hself : (dirChars name attr).takeWhile (· ≠ 0) = dirChars name attr := by
      refine takeWhile_eq_self_iff.mpr fun c hc => decide_eq_true ?_
      rw [hchars] at hc
      rcases mem_append.mp hc with hc | hc
      · exact (hall c (mem_of_mem_take (mem_of_mem_filter hc))).1
      split_ifs at hc
      · exact absurd hc not_mem_nil
      · rcases mem_cons.mp hc with rfl | hc
        · decide
        · exact (hall c (mem_of_mem_drop (mem_of_mem_filter hc))).1
    have hb : dotChar ∉ (name.take 8).filter (· ≠ spaceChar) := fun h =>
      hdot (mem_of_mem_filter h)
    have hblen : ((name.take 8).filter (· ≠ spaceChar)).length ≤ 8 :=
      (length_filter_le ..).trans htake.le
    rw [hself, hchars]
    generalize he : (name.drop 8).filter (· ≠ spaceChar) = e at hone ⊢
    generalize hbeq : (name.take 8).filter (· ≠ spaceChar) = b at hone hb hblen ⊢
    obtain ⟨hbase', hext'⟩ := searchedExt_append (e := e) hb hblen
    -- A name of dots only would come from a base with a dot, or from the extension `.`.
    have hne : ∀ l, (∀ c ∈ l, c = dotChar) → b ++ (if e = [] then [] else dotChar :: e) = l →
        b = [] := by
      intro l hl heq
      cases b with
      | nil => rfl
      | cons c b =>
        have hc := hl c (heq ▸ mem_cons_self)
        exact absurd (hc ▸ mem_cons_self) hb
    rw [compareFatName_eq, searched, hbase', hext', ← he, ← hbeq]
    · have h8 := field_filter hbase fun c hc => (hall c (mem_of_mem_take hc)).2
      have h3 := field_filter hext fun c hc => (hall c (mem_of_mem_drop hc)).2
      rw [htake] at h8
      rw [hdrop] at h3
      rw [h8, h3, take_append_drop]
    · intro heq
      obtain rfl := hne _ (by simp) heq
      split_ifs at heq with hnil
      · cases heq
      · simp [hnil] at heq
    · intro heq
      obtain rfl := hne _ (by simp) heq
      split_ifs at heq with hnil
      · cases heq
      · exact hone ⟨rfl, by simpa using heq⟩

end Short

/-! ## Listing and looking up -/

section Agree

variable {m : Mem} {n g : ℕ}

/-- The slot is found under its listed name, when no other one is: the long name that `finddir` has put
together is the listed one, or the eleven bytes match it. -/
def Codes (m : Mem) (g : ℕ) : Prop :=
  if lfnBefore m g 0 ≠ 0 then lfnString (lfnBefore m g) = listedName m g
  else if dirLfnBefore m g 0 ≠ 0 then
    compareFatName (entName m g) ((lfnString (dirLfnBefore m g)).take 127) = true
  else ShortCodec (entName m g)

instance (m : Mem) (g : ℕ) : Decidable (Codes m g) := by unfold Codes; infer_instance

theorem accepts_listedName_iff (hshort : IsShort m g) : Accepts m (listedName m g) g ↔ Codes m g := by
  have hattr : entAttr m g &&& attrVolume = 0 := by
    by_contra h
    exact hshort.2.1 ⟨h, hshort.2.2⟩
  rw [Accepts, and_iff_right hshort, Codes]
  by_cases hfind : lfnBefore m g 0 ≠ 0
  · rw [if_pos hfind, if_pos hfind, decide_eq_true_iff]
  rw [if_neg hfind, if_neg hfind, listedName, direntName]
  by_cases hdir : dirLfnBefore m g 0 ≠ 0
  · rw [if_pos hdir, if_pos hdir]
  · rw [if_neg hdir, if_neg hdir]
    exact compare_shortName_iff Mem.length_bytesAt hattr

def Returned (m : Mem) (n g : ℕ) : Prop := ∃ index < 2 ^ 32, (listed m n)[index]? = some g

theorem Returned.mem (h : Returned m n g) : g ∈ listed m n := by
  obtain ⟨i, -, hi⟩ := h
  exact mem_of_getElem? hi

def FitsDirent (m : Mem) (g : ℕ) : Prop :=
  dirLfnBefore m g 0 ≠ 0 → (lfnString (dirLfnBefore m g)).length ≤ 127

def DistinctNames (m : Mem) (n : ℕ) : Prop :=
  ∀ g h, Returned m n g → Returned m n h → g ≠ h → listedName m g ≠ listedName m h

theorem mem_listed : h ∈ listed m n ↔ h < n ∧ IsShort m h ∧ ∀ e < h, entFirst m e ≠ 0 := by
  rw [listed, mem_listedFrom]
  simp only [Nat.zero_le, true_and, Nat.zero_add, forall_const]

variable {name : List UInt8}

theorem FirstFound.mem_listed (h : FirstFound m name n g) : g ∈ listed m n :=
  KeonOS.mem_listed.mpr ⟨h.1, h.2.1.1, fun e he => (h.2.2 e he).1⟩

theorem exists_firstFound_iff : (∃ f, FirstFound m name n f) ↔ ∃ h ∈ listed m n, Accepts m name h := by
  constructor
  · rintro ⟨f, hf⟩
    exact ⟨f, hf.mem_listed, hf.2.1⟩
  rintro ⟨h, hh, hacc⟩
  obtain ⟨hlt, -, hbefore⟩ := mem_listed.mp hh
  have hex : ∃ f, Accepts m name f := ⟨h, hacc⟩
  have hle := Nat.find_min' hex hacc
  exact ⟨Nat.find hex, lt_of_le_of_lt hle hlt, Nat.find_spec hex,
    fun k hk => ⟨hbefore k (hk.trans_le hle), Nat.find_min hex hk⟩⟩

theorem firstFound_listedName_iff (hmem : g ∈ listed m n) : FirstFound m (listedName m g) n g ↔
      Codes m g ∧ ∀ h ∈ listed m n, h < g → ¬Accepts m (listedName m g) h := by
  obtain ⟨hlt, hshort, hbefore⟩ := mem_listed.mp hmem
  rw [← accepts_listedName_iff hshort]
  constructor
  · rintro ⟨-, hacc, hfirst⟩
    exact ⟨hacc, fun h _ hh => (hfirst h hh).2⟩
  · rintro ⟨hacc, hfirst⟩
    refine ⟨hlt, hacc, fun h hh => ⟨hbefore h hh, fun hacc' => ?_⟩⟩
    refine hfirst h (mem_listed.mpr ⟨hh.trans hlt, hacc'.1, fun e he => ?_⟩) hh hacc'
    exact hbefore e (he.trans hh)

variable {fs : Fat32} {N dir fuel : ℕ} {d : FatDisk} {cs : List ℕ}

/-- Each listed name of at most 127 characters is found, and if the names are distinct, with its entry. -/
def ListingAgrees (fs : Fat32) (fuel dir : ℕ) (d : FatDisk) (cs : List ℕ) : Prop :=
  ∀ g, Returned (fs.fileByte d cs) (cs.length * fs.dirSlots) g → FitsDirent (fs.fileByte d cs) g →
    (∃ f, fs.finddir fuel dir (listedName (fs.fileByte d cs) g) d = some (some f)) ∧
    (DistinctNames (fs.fileByte d cs) (cs.length * fs.dirSlots) →
      fs.finddir fuel dir (listedName (fs.fileByte d cs) g) d = some (some (foundAt fs d cs g)))

theorem finddir_isSome_iff (hg : FatGeometry fs N)
    (hcs : fs.Chain N d dir cs) (hdir : dir ≠ 0)
    (hfuel : cs.length < fuel) :
    (∃ f, fs.finddir fuel dir name d = some (some f)) ↔
      ∃ h ∈ listed (fs.fileByte d cs) (cs.length * fs.dirSlots), Accepts (fs.fileByte d cs) name h := by
  rw [← exists_firstFound_iff]
  constructor
  · rintro ⟨f, hf⟩
    by_contra hnone
    push Not at hnone
    rw [finddir_missing hg hcs hdir hfuel hnone] at hf
    cases hf
  · rintro ⟨g, hfound⟩
    exact ⟨_, finddir_found hg hcs hdir hfuel hfound⟩

theorem finddir_eq_foundAt_iff (hg : FatGeometry fs N)
    (hcs : fs.Chain N d dir cs) (hdir : dir ≠ 0)
    (hfuel : cs.length < fuel) (hlt : g < cs.length * fs.dirSlots) :
    fs.finddir fuel dir name d = some (some (foundAt fs d cs g)) ↔
      FirstFound (fs.fileByte d cs) name (cs.length * fs.dirSlots) g := by
  refine ⟨fun h => ?_, finddir_found hg hcs hdir hfuel⟩
  by_cases hnone : ∀ f, ¬FirstFound (fs.fileByte d cs) name (cs.length * fs.dirSlots) f
  · rw [finddir_missing hg hcs hdir hfuel hnone] at h
    cases h
  · push Not at hnone
    obtain ⟨f, hf⟩ := hnone
    rw [finddir_found hg hcs hdir hfuel hf, Option.some.injEq, Option.some.injEq] at h
    exact foundAt_inj hg hcs hf.1 hlt h ▸ hf

end Agree

/-- The entry of the file `A B.TXT` in cluster 2. -/
def spacedEntry : List UInt8 :=
  [65, 32, 66, 32, 32, 32, 32, 32, 84, 88, 84, 0x20] ++ List.replicate 14 0 ++ [2, 0, 0, 0, 0, 0]

end KeonOS
