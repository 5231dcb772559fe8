import KeonOS.Fat.Chains

/-!
# FAT32: the entry that is looked up and the entry that is unlinked

`FAT32_Directory::finddir` and `unlink` scan a directory in different ways: `finddir` compares the long
name when there is one, passes by volume labels and stops at the end marker; `unlink` compares the eleven
bytes of every entry that is not deleted, and goes on with the next cluster after an end marker. What
`unlink` marks besides the entry are the long-name entries before it in the same cluster.

* **`unlink_agrees_iff`**: when it does.
-/

namespace KeonOS

open FatGeometry List Option

/-! ## Slots -/

variable {g k n p : ℕ}

section Slots

variable {m : Mem} {name : List UInt8}

/-- `lfn_name` after the slot `g`, which does not end the search. -/
def lfnAfter (m : Mem) (g : ℕ) (lfn : Mem) : Mem :=
  if entFirst m g = deletedMark then fun _ => 0
  else if entAttr m g &&& attrVolume ≠ 0 ∧ entAttr m g ≠ attrLfn then lfn
  else if entAttr m g = attrLfn then lfnStore m g lfn
  else fun _ => 0

/-- `lfn_name` before the slot `g` of a directory. -/
def lfnBefore (m : Mem) : ℕ → Mem
  | 0 => fun _ => 0
  | g + 1 => lfnAfter m g (lfnBefore m g)

def SlotLive (m : Mem) (g : ℕ) : Prop := entFirst m g ≠ 0 ∧ entFirst m g ≠ deletedMark

def IsShort (m : Mem) (g : ℕ) : Prop :=
  SlotLive m g ∧ ¬(entAttr m g &&& attrVolume ≠ 0 ∧ entAttr m g ≠ attrLfn) ∧ entAttr m g ≠ attrLfn

def IsLong (m : Mem) (g : ℕ) : Prop := SlotLive m g ∧ entAttr m g = attrLfn

/-- `finddir` takes the slot when it comes to it. -/
def Accepts (m : Mem) (name : List UInt8) (g : ℕ) : Prop := IsShort m g ∧
    (if lfnBefore m g 0 ≠ 0 then decide (lfnString (lfnBefore m g) = name)
      else compareFatName (entName m g) name) = true

/-- `unlink` takes the slot when it comes to it. -/
def Raw (m : Mem) (name : List UInt8) (g : ℕ) : Prop :=
  SlotLive m g ∧ compareFatName (entName m g) name = true

instance (m : Mem) (g : ℕ) : Decidable (SlotLive m g) := by unfold SlotLive; infer_instance

instance (m : Mem) (g : ℕ) : Decidable (IsShort m g) := by unfold IsShort; infer_instance

instance (m : Mem) (g : ℕ) : Decidable (IsLong m g) := by unfold IsLong; infer_instance

instance (m : Mem) (name : List UInt8) (g : ℕ) : Decidable (Accepts m name g) := by
  unfold Accepts; infer_instance

instance (m : Mem) (name : List UInt8) (g : ℕ) : Decidable (Raw m name g) := by
  unfold Raw; infer_instance

theorem findScan_cons (g : ℕ) (is : List ℕ) : findScan m name (g :: is) (lfnBefore m g) =
      if entFirst m g = 0 then .stop
      else if Accepts m name g then .found g
      else findScan m name is (lfnBefore m (g + 1)) := by
  rw [findScan, lfnBefore, lfnAfter]
  by_cases hzero : entFirst m g = 0
  · rw [if_pos hzero, if_pos hzero]
  rw [if_neg hzero, if_neg hzero]
  by_cases hdel : entFirst m g = deletedMark
  · have hno : ¬Accepts m name g := fun h => h.1.1.2 hdel
    rw [if_pos hdel, if_neg hno, if_pos hdel]
  rw [if_neg hdel, if_neg hdel]
  by_cases hvol : entAttr m g &&& attrVolume ≠ 0 ∧ entAttr m g ≠ attrLfn
  · have hno : ¬Accepts m name g := fun h => h.1.2.1 hvol
    rw [if_pos hvol, if_neg hno, if_pos hvol]
  rw [if_neg hvol, if_neg hvol]
  by_cases hlfn : entAttr m g = attrLfn
  · have hno : ¬Accepts m name g := fun h => h.1.2.2 hlfn
    rw [if_pos hlfn, if_neg hno, if_pos hlfn]
  rw [if_neg hlfn, if_neg hlfn]
  have hshort : IsShort m g := ⟨⟨hzero, hdel⟩, hvol, hlfn⟩
  refine if_congr ?_ rfl rfl
  exact (and_iff_right hshort).symm

/-- The first slot, of `k` from `g` on, that meets `A`, unless one that meets `Z` is before it. -/
def firstFrom (Z A : ℕ → Prop) [DecidablePred Z] [DecidablePred A] : ℕ → ℕ → Option ℕ
  | _, 0 => none
  | g, k + 1 => if Z g then none else if A g then some g else firstFrom Z A (g + 1) k

section First

variable {Z A : ℕ → Prop} [DecidablePred Z] [DecidablePred A] {g k l h : ℕ}

theorem firstFrom_eq_some_iff (hZ : ∀ j, A j → ¬Z j) : firstFrom Z A g k = some h ↔
    (g ≤ h ∧ h < g + k) ∧ A h ∧ ∀ j, g ≤ j → j < h → ¬Z j ∧ ¬A j := by
  induction k generalizing g with
  | zero =>
    refine iff_of_false (fun h => by cases h) fun h => ?_
    omega
  | succ k ih =>
    rw [firstFrom]
    by_cases hzero : Z g
    · rw [if_pos hzero]
      refine iff_of_false (fun h => by cases h) fun ⟨hle, hacc, hall⟩ => ?_
      rcases hle.1.eq_or_lt with rfl | hlt
      · exact hZ _ hacc hzero
      · exact (hall g le_rfl hlt).1 hzero
    rw [if_neg hzero]
    by_cases hacc : A g
    · rw [if_pos hacc]
      constructor
      · intro h
        cases h
        exact ⟨⟨le_rfl, by omega⟩, hacc, fun j h1 h2 => by omega⟩
      · rintro ⟨hle, -, hall⟩
        rcases hle.1.eq_or_lt with rfl | hlt
        · rfl
        · exact absurd hacc (hall g le_rfl hlt).2
    · rw [if_neg hacc, ih]
      constructor
      · rintro ⟨hle, hh, hall⟩
        refine ⟨⟨by omega, by omega⟩, hh, fun j h1 h2 => ?_⟩
        rcases h1.eq_or_lt with rfl | hlt
        · exact ⟨hzero, hacc⟩
        · exact hall j hlt h2
      · rintro ⟨hle, hh, hall⟩
        have hne : g ≠ h := fun heq => hacc (heq ▸ hh)
        exact ⟨⟨by omega, by omega⟩, hh, fun j h1 h2 => hall j (by omega) h2⟩

theorem firstFrom_add_of_some (h' : firstFrom Z A g k = some h) : firstFrom Z A g (k + l) = some h := by
  induction k generalizing g with
  | zero => cases h'
  | succ k ih =>
    rw [Nat.succ_add, firstFrom]
    rw [firstFrom] at h'
    split_ifs at h' ⊢ with hzero hacc
    · exact h'
    · exact ih h'

end First

/-- What `finddir` has found. -/
def FatScan.slot : FatScan → Option ℕ
  | .found g => some g
  | _ => none

theorem slot_findScan (g k : ℕ) : (findScan m name (List.range' g k) (lfnBefore m g)).slot =
      firstFrom (entFirst m · = 0) (Accepts m name) g k := by
  induction k generalizing g with
  | zero => rfl
  | succ k ih =>
    rw [List.range'_succ, findScan_cons, firstFrom]
    split_ifs
    · rfl
    · rfl
    · exact ih (g + 1)

theorem findScan_next {lfn : Mem} (h : findScan m name (List.range' g k) (lfnBefore m g) = .next lfn) :
    lfn = lfnBefore m (g + k) ∧ ∀ l, firstFrom (entFirst m · = 0) (Accepts m name) g (k + l) =
      firstFrom (entFirst m · = 0) (Accepts m name) (g + k) l := by
  induction k generalizing g with
  | zero =>
    cases h
    exact ⟨rfl, fun l => by rw [Nat.zero_add]; rfl⟩
  | succ k ih =>
    rw [List.range'_succ, findScan_cons] at h
    split_ifs at h with hzero hacc
    obtain ⟨hlfn, hrest⟩ := ih h
    rw [show g + (k + 1) = g + 1 + k by omega]
    refine ⟨hlfn, fun l => ?_⟩
    rw [Nat.succ_add, firstFrom, if_neg hzero, if_neg hacc, hrest]

theorem findScan_stop (h : findScan m name (List.range' g k) (lfnBefore m g) = .stop)
    (l : ℕ) : firstFrom (entFirst m · = 0) (Accepts m name) g (k + l) = none := by
  induction k generalizing g with
  | zero => cases h
  | succ k ih =>
    rw [List.range'_succ, findScan_cons] at h
    rw [Nat.succ_add, firstFrom]
    split_ifs at h ⊢ with hzero hacc
    · rfl
    · exact ih h

theorem unlinkScan_eq (g k : ℕ) : unlinkScan m name (List.range' g k) =
    firstFrom (entFirst m · = 0) (Raw m name) g k := by
  induction k generalizing g with
  | zero => rfl
  | succ k ih =>
    rw [List.range'_succ, unlinkScan, firstFrom, ih (g + 1)]
    by_cases hzero : entFirst m g = 0
    · rw [if_pos hzero, if_pos hzero]
    rw [if_neg hzero, if_neg hzero]
    by_cases hdel : entFirst m g = deletedMark
    · have hno : ¬Raw m name g := fun h => h.1.2 hdel
      rw [if_pos hdel, if_neg hno]
    · rw [if_neg hdel]
      exact if_congr (and_iff_right (⟨hzero, hdel⟩ : SlotLive m g)).symm rfl rfl

def SameSlot (m : Mem) (i : ℕ) (m' : Mem) (g : ℕ) : Prop :=
  ∀ o < dirEntryBytes, m (i * dirEntryBytes + o) = m' (g * dirEntryBytes + o)

variable {a : ℕ}

namespace SameSlot

variable {m' : Mem} {i g : ℕ} (h : SameSlot m i m' g)
include h

theorem first : entFirst m i = entFirst m' g := h 0 (by decide)

theorem attr : entAttr m i = entAttr m' g := h 11 (by decide)

theorem name_eq : entName m i = entName m' g := Mem.bytesAt_congr fun o ho => h o (ho.trans (by decide))

theorem readLE (ha : a + n ≤ dirEntryBytes) :
    m.readLE (i * dirEntryBytes + a) n = m'.readLE (g * dirEntryBytes + a) n := by
  refine Mem.readLE_congr fun o ho => ?_
  rw [add_assoc, add_assoc]
  exact h (a + o) (by omega)

theorem size : entSize m i = entSize m' g := h.readLE (by decide)

theorem cluster : entCluster m i = entCluster m' g := by
  rw [entCluster, entCluster, h.readLE (by decide), h.readLE (by decide)]

theorem lfnChar (hp : p ∈ lfnPlaces) : m.readLE (i * dirEntryBytes + p) 2 =
    m'.readLE (g * dirEntryBytes + p) 2 := by
  refine h.readLE ?_
  revert p
  decide

theorem lfnStore_eq (lfn : Mem) : lfnStore m i lfn = lfnStore m' g lfn := by
  rw [lfnStore, lfnStore, h.first]
  split_ifs
  · rfl
  funext x
  cases hp : lfnPlaces[x - ((entFirst m' g).toNat % 64 - 1) * 13]? with
  | none => rfl
  | some p =>
    dsimp only
    rw [h.lfnChar (mem_of_getElem? hp)]

end SameSlot

variable {m' : Mem} {is : List ℕ}

theorem findScan_map (h : ∀ i ∈ is, SameSlot m i m' (a + i))
    (lfn : Mem) : findScan m' name (is.map (a + ·)) lfn =
      match findScan m name is lfn with
      | .next lfn => .next lfn
      | .stop => .stop
      | .found i => .found (a + i) := by
  induction is generalizing lfn with
  | nil => rfl
  | cons i is ih =>
    have hi := h i mem_cons_self
    have hrest := ih fun j hj => h j (mem_cons_of_mem i hj)
    rw [map_cons, findScan, findScan, ← hi.first, ← hi.attr, ← hi.name_eq, ← hi.lfnStore_eq]
    split_ifs <;> first | rfl | exact hrest _

theorem unlinkScan_map (h : ∀ i ∈ is, SameSlot m i m' (a + i)) :
    unlinkScan m' name (is.map (a + ·)) = (unlinkScan m name is).map (a + ·) := by
  induction is with
  | nil => rfl
  | cons i is ih =>
    have hi := h i mem_cons_self
    have hrest := ih fun j hj => h j (mem_cons_of_mem i hj)
    rw [map_cons, unlinkScan, unlinkScan, ← hi.first, ← hi.name_eq]
    split_ifs
    · rfl
    · exact hrest
    · rfl
    · exact hrest

end Slots

/-! ## The calls on the bytes of a directory -/

/-- Nothing before the slot in its cluster, of `S` slots, is an end marker. -/
def Seen (m : Mem) (S g : ℕ) : Prop := ∀ e, g / S * S ≤ e → e < g → entFirst m e ≠ 0

/-- `finddir` finds the slot `g` in a directory of `n` slots. -/
def FirstFound (m : Mem) (name : List UInt8) (n g : ℕ) : Prop :=
  g < n ∧ Accepts m name g ∧ ∀ h < g, entFirst m h ≠ 0 ∧ ¬Accepts m name h

/-- `unlink` finds the slot `g` in a directory of `n` slots. -/
def FirstRaw (m : Mem) (name : List UInt8) (S n g : ℕ) : Prop :=
  g < n ∧ (Raw m name g ∧ Seen m S g) ∧ ∀ h < g, ¬(Raw m name h ∧ Seen m S h)

variable {m : Mem} {name : List UInt8}

theorem firstFrom_accepts_iff :
    firstFrom (entFirst m · = 0) (Accepts m name) 0 n = some g ↔ FirstFound m name n g := by
  rw [firstFrom_eq_some_iff fun j hj => hj.1.1.1, FirstFound]
  simp only [Nat.zero_le, true_and, Nat.zero_add, forall_const, ne_eq]

theorem FirstFound.unique {h : ℕ} (hg : FirstFound m name n g) (hh : FirstFound m name n h) : g = h := by
  have := (firstFrom_accepts_iff.mpr hg).symm.trans (firstFrom_accepts_iff.mpr hh)
  exact Option.some.inj this

variable {S : ℕ}

theorem FirstRaw.unique {h : ℕ} (hg : FirstRaw m name S n g) (hh : FirstRaw m name S n h) : g = h := by
  rcases lt_trichotomy g h with hlt | heq | hlt
  · exact absurd hg.2.1 (hh.2.2 g hlt)
  · exact heq
  · exact absurd hh.2.1 (hg.2.2 h hlt)

theorem exists_firstRaw (hlt : g < n) (h : Raw m name g ∧ Seen m S g) : ∃ f, FirstRaw m name S n f := by
  classical
  have hex : ∃ f, Raw m name f ∧ Seen m S f := ⟨g, h⟩
  exact ⟨Nat.find hex, lt_of_le_of_lt (Nat.find_min' hex h) hlt, Nat.find_spec hex,
    fun k hk => Nat.find_min hex hk⟩

variable {i j cluster fuel : ℕ}

section Directory

variable {fs : Fat32} {N dir : ℕ} {d : FatDisk} {cs : List ℕ} {name : List UInt8} (hg : FatGeometry fs N)
  (hcs : fs.Chain N d dir cs)

theorem dirSlots_mul (fs : Fat32) : fs.dirSlots * dirEntryBytes = fs.clusterSize := by
  change fs.sectorsPerCluster * 512 / 32 * 32 = fs.sectorsPerCluster * 512
  omega

include hg in
theorem dirSlots_pos : 0 < fs.dirSlots := by
  refine Nat.pos_of_ne_zero fun h => ?_
  have hmul := dirSlots_mul fs
  rw [h, Nat.zero_mul] at hmul
  exact hg.clusterSize_pos.ne hmul

include hg hcs

theorem sameSlot_cluster (hj : cs[j]? = some cluster) (hi : i < fs.dirSlots) :
    SameSlot (fs.clusterBytes d cluster) i (fs.fileByte d cs) (j * fs.dirSlots + i) := by
  intro o ho
  have hmul := dirSlots_mul fs
  have hlt : i * dirEntryBytes + o < fs.clusterSize := by
    have := Nat.mul_le_mul_right dirEntryBytes (Nat.succ_le_of_lt hi)
    rw [Nat.succ_mul] at this
    omega
  rw [hg.clusterBytes_at hcs hj hlt, ← hmul, Nat.add_mul, Nat.mul_assoc, Nat.add_assoc]

theorem cluster_scan (j : ℕ) (hj : cs[j]? = some cluster) : ∀ i ∈ List.range fs.dirSlots,
      SameSlot (fs.clusterBytes d cluster) i (fs.fileByte d cs) (j * fs.dirSlots + i) :=
  fun _ hi => sameSlot_cluster hg hcs hj (mem_range.mp hi)

/-- The node that `finddir` makes for the slot `g`. -/
def foundAt (fs : Fat32) (d : FatDisk) (cs : List ℕ) (g : ℕ) : FatFound where
  cluster := entCluster (fs.fileByte d cs) g
  isDir := entAttr (fs.fileByte d cs) g &&& attrDirectory ≠ 0
  size := entSize (fs.fileByte d cs) g
  entryLba := fs.sectorOf cs (g * dirEntryBytes)
  entryOffset := g * dirEntryBytes % 512

theorem sectorOf_slot (hj : cs[j]? = some cluster) (hi : i < fs.dirSlots) :
    fs.sectorOf cs ((j * fs.dirSlots + i) * dirEntryBytes) = fs.entryLba cluster i ∧
      (j * fs.dirSlots + i) * dirEntryBytes % 512 = Fat32.entryOffset i := by
  obtain ⟨hk2, hkN, -⟩ := hcs.used_at hj
  have hmul := dirSlots_mul fs
  have hlt : i * dirEntryBytes < fs.clusterSize := by
    rw [← hmul]
    exact Nat.mul_lt_mul_of_pos_right hi (by decide)
  have heq : (j * fs.dirSlots + i) * dirEntryBytes = fs.clusterSize * j + i * dirEntryBytes := by
    rw [Nat.add_mul, Nat.mul_assoc, hmul, Nat.mul_comm j]
  have hfits := hg.cluster_fits hkN hk2
  have hsec : i * dirEntryBytes / 512 < fs.sectorsPerCluster := by
    rw [Fat32.clusterSize] at hlt
    omega
  constructor
  · rw [Fat32.sectorOf, heq, Nat.mul_add_div hg.clusterSize_pos, Nat.div_eq_of_lt hlt, Nat.add_zero,
      Nat.mul_add_mod, Nat.mod_eq_of_lt hlt, getD_eq_getElem?_getD, hj, getD_some,
      Fat32.entryLba, hg.clusterToLba_eq hkN hk2, Nat.mod_eq_of_lt (by omega)]
  · rw [heq, Fat32.clusterSize, Nat.mul_comm fs.sectorsPerCluster, Nat.mul_assoc, Nat.mul_add_mod,
      Fat32.entryOffset]

theorem finddirLoop_eq (hat : TableChain.At endMark cs j cluster) (hfuel : cs.length < fuel + j) :
    fs.finddirLoop name d fuel cluster (lfnBefore (fs.fileByte d cs) (j * fs.dirSlots)) =
      some ((firstFrom (entFirst (fs.fileByte d cs) · = 0) (Accepts (fs.fileByte d cs) name)
        (j * fs.dirSlots) ((cs.length - j) * fs.dirSlots)).map (foundAt fs d cs)) := by
  induction fuel generalizing j cluster with
  | zero => exact absurd hat.le (by omega)
  | succ fuel ih =>
    rcases hat with hj | ⟨rfl, hend⟩
    rotate_left
    · rw [Fat32.finddirLoop, if_neg (by omega), Nat.sub_self, Nat.zero_mul]
      rfl
    have hlt := (List.getElem?_eq_some_iff.mp hj).1
    have hmarks := hg.marks
    obtain ⟨hk2, hkN, -⟩ := hcs.used_at hj
    have hrange : (List.range fs.dirSlots).map (j * fs.dirSlots + ·) =
        List.range' (j * fs.dirSlots) fs.dirSlots := (List.range'_eq_map_range ..).symm
    have hscan : findScan (fs.fileByte d cs) name _ _ = _ := findScan_map (cluster_scan hg hcs j hj)
      (lfnBefore (fs.fileByte d cs) (j * fs.dirSlots))
    have hslots : (cs.length - j) * fs.dirSlots = fs.dirSlots + (cs.length - (j + 1)) * fs.dirSlots := by
      rw [show cs.length - j = cs.length - (j + 1) + 1 by omega, Nat.succ_mul, Nat.add_comm]
    rw [hrange] at hscan
    rw [Fat32.finddirLoop, if_pos ⟨by omega, by omega⟩, hslots]
    dsimp only
    cases hres : findScan (fs.clusterBytes d cluster) name (List.range fs.dirSlots)
      (lfnBefore (fs.fileByte d cs) (j * fs.dirSlots)) with
    | stop =>
      rw [hres] at hscan
      rw [findScan_stop hscan]
      rfl
    | found i =>
      rw [hres] at hscan
      have hfirst : (findScan (fs.fileByte d cs) name _ _).slot = _ :=
        slot_findScan (j * fs.dirSlots) fs.dirSlots
      rw [hscan] at hfirst
      have hi : i < fs.dirSlots := by
        have := ((firstFrom_eq_some_iff fun j hj => hj.1.1.1).mp hfirst.symm).1
        omega
      have hsame := sameSlot_cluster hg hcs hj hi
      obtain ⟨hlba, hoff⟩ := sectorOf_slot hg hcs hj hi
      rw [firstFrom_add_of_some hfirst.symm, map_some, foundAt, hlba, hoff, ← hsame.cluster,
        ← hsame.attr, ← hsame.size]
    | next lfn =>
      rw [hres] at hscan
      obtain ⟨rfl, hrest⟩ := findScan_next hscan
      rw [hrest]
      rw [show j * fs.dirSlots + fs.dirSlots = (j + 1) * fs.dirSlots from (Nat.succ_mul _ _).symm]
      exact ih (hcs.at_succ hj) (by omega)

theorem finddir_eq (hdir : dir ≠ 0) (hfuel : cs.length < fuel) : fs.finddir fuel dir name d =
      some ((firstFrom (entFirst (fs.fileByte d cs) · = 0) (Accepts (fs.fileByte d cs) name) 0
        (cs.length * fs.dirSlots)).map (foundAt fs d cs)) := by
  have h : fs.finddirLoop name d fuel dir (lfnBefore (fs.fileByte d cs) (0 * fs.dirSlots)) = _ :=
    finddirLoop_eq hg hcs (.inl (chain_first hcs hdir)) hfuel
  rwa [Nat.zero_mul, Nat.sub_zero] at h

theorem unlinkScan_cluster (hj : cs[j]? = some cluster) :
    unlinkScan (fs.clusterBytes d cluster) name (List.range fs.dirSlots) = some i ↔ i < fs.dirSlots ∧
        (Raw (fs.fileByte d cs) name (j * fs.dirSlots + i) ∧
          Seen (fs.fileByte d cs) fs.dirSlots (j * fs.dirSlots + i)) ∧
        ∀ h, j * fs.dirSlots ≤ h → h < j * fs.dirSlots + i →
          ¬(Raw (fs.fileByte d cs) name h ∧ Seen (fs.fileByte d cs) fs.dirSlots h) := by
  have hscan : unlinkScan (fs.fileByte d cs) name _ = _ := unlinkScan_map (cluster_scan hg hcs j hj)
  rw [← List.range'_eq_map_range, unlinkScan_eq] at hscan
  have hmap : unlinkScan (fs.clusterBytes d cluster) name (List.range fs.dirSlots) = some i ↔
      firstFrom (entFirst (fs.fileByte d cs) · = 0) (Raw (fs.fileByte d cs) name) (j * fs.dirSlots)
        fs.dirSlots = some (j * fs.dirSlots + i) := by
    rw [hscan, map_eq_some_iff]
    refine ⟨fun h => ⟨i, h, rfl⟩, fun ⟨i', h, heq⟩ => ?_⟩
    rwa [Nat.add_left_cancel heq] at h
  rw [hmap, firstFrom_eq_some_iff fun k hk => hk.1.1]
  -- in one cluster, what is before a slot that is seen is seen
  have hdiv : ∀ h, j * fs.dirSlots ≤ h → h < j * fs.dirSlots + fs.dirSlots → h / fs.dirSlots = j :=
    fun h h1 h2 => Nat.div_eq_of_lt_le h1 (by rwa [Nat.succ_mul])
  constructor
  · rintro ⟨⟨-, hlt⟩, hraw, hall⟩
    refine ⟨by omega, ⟨hraw, fun e h1 h2 => ?_⟩, fun h h1 h2 hh => (hall h h1 h2).2 hh.1⟩
    rw [hdiv _ (by omega) hlt] at h1
    exact (hall e h1 h2).1
  rintro ⟨hi, ⟨hraw, hseen⟩, hall⟩
  refine ⟨⟨by omega, by omega⟩, hraw, fun k h1 h2 => ⟨?_, fun hk => ?_⟩⟩
  · refine hseen k ?_ h2
    rwa [hdiv _ (by omega) (by omega)]
  · refine hall k h1 h2 ⟨hk, fun e h3 h4 => hseen e ?_ (h4.trans h2)⟩
    rw [hdiv k h1 (by omega)] at h3
    rwa [hdiv _ (by omega) (by omega)]

theorem unlinkLoop_none (hat : TableChain.At endMark cs j cluster) (hfuel : cs.length < fuel + j)
    (hnone : ∀ h, j * fs.dirSlots ≤ h → h < cs.length * fs.dirSlots →
      ¬(Raw (fs.fileByte d cs) name h ∧ Seen (fs.fileByte d cs) fs.dirSlots h)) :
    fs.unlinkLoop name fuel cluster d = some (false, d) := by
  induction fuel generalizing j cluster with
  | zero => exact absurd hat.le (by omega)
  | succ fuel ih =>
    rcases hat with hj | ⟨rfl, hend⟩
    rotate_left
    · rw [Fat32.unlinkLoop, if_neg (by omega)]
    have hlt := (List.getElem?_eq_some_iff.mp hj).1
    have hmarks := hg.marks
    obtain ⟨hk2, hkN, -⟩ := hcs.used_at hj
    have hle : j * fs.dirSlots + fs.dirSlots ≤ cs.length * fs.dirSlots := by
      rw [← Nat.succ_mul]
      exact Nat.mul_le_mul_right _ hlt
    rw [Fat32.unlinkLoop, if_pos ⟨by omega, by omega⟩]
    dsimp only
    cases hscan : unlinkScan (fs.clusterBytes d cluster) name (List.range fs.dirSlots) with
    | some i =>
      obtain ⟨hi, hraw, -⟩ := (unlinkScan_cluster hg hcs hj).mp hscan
      exact absurd hraw (hnone _ (by omega) (by omega))
    | none =>
      refine ih (hcs.at_succ hj) (by omega) fun h h1 h2 => hnone h ?_ h2
      rw [Nat.succ_mul] at h1
      omega

theorem unlinkLoop_some (hj : cs[j]? = some cluster)
    (hfuel : cs.length < fuel + j) (hge : j * fs.dirSlots ≤ g) (hlt : g < cs.length * fs.dirSlots)
    (hraw : Raw (fs.fileByte d cs) name g ∧ Seen (fs.fileByte d cs) fs.dirSlots g)
    (hfirst : ∀ h, j * fs.dirSlots ≤ h → h < g →
      ¬(Raw (fs.fileByte d cs) name h ∧ Seen (fs.fileByte d cs) fs.dirSlots h)) :
    ∃ k cluster', cs[g / fs.dirSlots]? = some cluster' ∧ k + g / fs.dirSlots = fuel + j ∧
      fs.unlinkLoop name fuel cluster d =
        (fs.freeClusterChain k (entCluster (fs.fileByte d cs) g) d).map fun d₁ =>
          (true, d₁.write (fs.clusterToLba cluster') fs.sectorsPerCluster
            (markDeleted (fs.clusterBytes d cluster') (g % fs.dirSlots))) := by
  have hS : 0 < fs.dirSlots := dirSlots_pos hg
  induction fuel generalizing j cluster with
  | zero =>
    have := (List.getElem?_eq_some_iff.mp hj).1
    omega
  | succ fuel ih =>
    have hmarks := hg.marks
    obtain ⟨hk2, hkN, -⟩ := hcs.used_at hj
    rw [Fat32.unlinkLoop, if_pos ⟨by omega, by omega⟩]
    dsimp only
    by_cases hin : g < j * fs.dirSlots + fs.dirSlots
    · have hdiv : g / fs.dirSlots = j := Nat.div_eq_of_lt_le hge (by rwa [Nat.succ_mul])
      have hmod : j * fs.dirSlots + g % fs.dirSlots = g := by
        have := Nat.div_add_mod g fs.dirSlots
        rwa [hdiv, Nat.mul_comm] at this
      have hscan : unlinkScan (fs.clusterBytes d cluster) name (List.range fs.dirSlots) =
          some (g % fs.dirSlots) := by
        rw [unlinkScan_cluster hg hcs hj, hmod]
        exact ⟨Nat.mod_lt g hS, hraw, hfirst⟩
      have hsame := sameSlot_cluster hg hcs hj (Nat.mod_lt g hS)
      rw [hmod] at hsame
      refine ⟨fuel + 1, cluster, by rw [hdiv, hj], by omega, ?_⟩
      rw [hscan, ← hsame.cluster]
    · have hnone : unlinkScan (fs.clusterBytes d cluster) name (List.range fs.dirSlots) = none := by
        rw [eq_none_iff_forall_ne_some]
        intro i hi
        obtain ⟨hi, hraw', -⟩ := (unlinkScan_cluster hg hcs hj).mp hi
        exact hfirst _ (by omega) (by omega) hraw'
      have hlast : j + 1 < cs.length := by
        by_contra hle
        have := Nat.mul_le_mul_right fs.dirSlots (show cs.length ≤ j + 1 by omega)
        rw [Nat.succ_mul] at this
        omega
      have hnext := (hcs.next_in hj hlast).1
      have hsucc : (j + 1) * fs.dirSlots = j * fs.dirSlots + fs.dirSlots := Nat.succ_mul _ _
      rw [hnone]
      obtain ⟨k, cluster', hc, hk, heq⟩ := ih hnext (by omega) (by omega)
        fun h h1 h2 => hfirst h (by omega) h2
      exact ⟨k, cluster', hc, by omega, heq⟩

end Directory

/-! ## The marks -/

/-- The loop of `unlink` down from slot `g` marks slot `h`. -/
def Marked (m : Mem) (g h : ℕ) : Prop := h ≤ g ∧ ∀ k < g, h ≤ k → entAttr m k = attrLfn

instance (m : Mem) (g h : ℕ) : Decidable (Marked m g h) := by unfold Marked; infer_instance

theorem entAttr_update (m : Mem) (j k : ℕ) (v : UInt8) :
    entAttr (Function.update m (j * dirEntryBytes) v) k = entAttr m k := by
  refine Function.update_of_ne ?_ _ _
  change k * 32 + 11 ≠ j * 32
  omega

theorem slot_byte (h : ℕ) :
    h * dirEntryBytes % dirEntryBytes = 0 ∧ h * dirEntryBytes / dirEntryBytes = h :=
  ⟨Nat.mul_mod_left _ _, Nat.mul_div_cancel _ (by decide)⟩

theorem markLfn_apply (m : Mem) (j x : ℕ) : markDeleted.markLfn j m x =
      if x % dirEntryBytes = 0 ∧ x / dirEntryBytes < j ∧ Marked m j (x / dirEntryBytes) then deletedMark
      else m x := by
  induction j generalizing m with
  | zero =>
    rw [markDeleted.markLfn, if_neg]
    rintro ⟨-, hlt, -⟩
    exact Nat.not_lt_zero _ hlt
  | succ j ih =>
    rw [markDeleted.markLfn]
    by_cases hattr : entAttr m j = attrLfn
    · rw [if_pos hattr, ih, Function.update_apply]
      have hiff : ∀ h, h < j → (Marked (Function.update m (j * dirEntryBytes) deletedMark) j h ↔
          Marked m (j + 1) h) := by
        intro h hlt
        refine ⟨fun ⟨hle, hall⟩ => ⟨by omega, fun k hk hk' => ?_⟩,
          fun ⟨_, hall⟩ => ⟨hlt.le, fun k hk hk' => ?_⟩⟩
        · rcases Nat.lt_succ_iff_lt_or_eq.mp hk with hk | rfl
          · rw [← entAttr_update m j k deletedMark]
            exact hall k hk hk'
          · exact hattr
        · rw [entAttr_update]
          exact hall k (by omega) hk'
      by_cases hx : x = j * dirEntryBytes
      · obtain ⟨hmod, hdiv⟩ := hx ▸ slot_byte j
        rw [hdiv, if_neg (fun h => lt_irrefl _ h.2.1), if_pos hx, if_pos]
        refine ⟨hmod, Nat.lt_succ_self j, by omega, fun k hk hk' => ?_⟩
        rwa [show k = j by omega]
      rw [if_neg hx]
      refine if_congr (and_congr_right fun hmod => ?_) rfl rfl
      have hne : x / dirEntryBytes ≠ j := by
        rintro rfl
        exact hx (Nat.div_mul_cancel (Nat.dvd_of_mod_eq_zero hmod)).symm
      constructor
      · rintro ⟨hlt, hmark⟩
        exact ⟨by omega, (hiff _ hlt).mp hmark⟩
      · rintro ⟨hlt, hmark⟩
        exact ⟨by omega, (hiff _ (by omega)).mpr hmark⟩
    · rw [if_neg hattr, if_neg]
      rintro ⟨-, hlt, -, hall⟩
      exact hattr (hall j (Nat.lt_succ_self j) (by omega))

theorem markDeleted_apply (m : Mem) (g x : ℕ) : markDeleted m g x =
      if x % dirEntryBytes = 0 ∧ Marked m g (x / dirEntryBytes) then deletedMark else m x := by
  have hself : markDeleted m g =
      markDeleted.markLfn g (Function.update m (g * dirEntryBytes) deletedMark) := by
    cases g with
    | zero => rfl
    | succ g => rfl
  have hmarked : ∀ h, Marked (Function.update m (g * dirEntryBytes) deletedMark) g h ↔ Marked m g h := by
    intro h
    simp only [Marked, entAttr_update]
  rw [hself, markLfn_apply, Function.update_apply]
  simp only [hmarked]
  by_cases hx : x = g * dirEntryBytes
  · obtain ⟨hmod, hdiv⟩ := hx ▸ slot_byte g
    rw [hdiv, if_neg (fun h => lt_irrefl _ h.2.1), if_pos hx, if_pos]
    exact ⟨hmod, le_rfl, fun k hk hk' => by omega⟩
  · rw [if_neg hx]
    refine if_congr (and_congr_right fun hmod => ⟨And.right, fun hmark => ⟨?_, hmark⟩⟩) rfl rfl
    refine lt_of_le_of_ne hmark.1 fun heq => hx ?_
    rw [← heq, Nat.div_mul_cancel (Nat.dvd_of_mod_eq_zero hmod)]

variable {c : ℕ}

section Written

variable {fs : Fat32} {N dir : ℕ} {d d₁ : FatDisk} {cs : List ℕ} (hg : FatGeometry fs N)
  (hcs : fs.Chain N d dir cs)
include hg hcs

theorem fileByte_writeCluster (hj : cs[j]? = some c) (hp : p < cs.length * fs.clusterSize)
    (buffer : Mem) :
    fs.fileByte (d₁.write (fs.clusterToLba c) fs.sectorsPerCluster buffer) cs p =
      if p / fs.clusterSize = j then buffer (p % fs.clusterSize) else fs.fileByte d₁ cs p := by
  obtain ⟨hk2, hkN, -⟩ := hcs.used_at hj
  have hpos := hg.clusterSize_pos
  have hdiv : p / fs.clusterSize < cs.length := Nat.div_lt_of_lt_mul (by rwa [Nat.mul_comm])
  have hget : cs[p / fs.clusterSize]? = some cs[p / fs.clusterSize] := getElem?_eq_getElem hdiv
  rw [Fat32.fileByte, FatDisk.sector_write, hg.clusterToLba_eq hkN hk2]
  by_cases hcluster : p / fs.clusterSize = j
  · have hmod : p % fs.clusterSize < fs.clusterSize := Nat.mod_lt p hpos
    have hsec : p % fs.clusterSize / 512 < fs.sectorsPerCluster := by
      rw [Fat32.clusterSize] at hmod ⊢
      omega
    have hof : fs.sectorOf cs p = fs.dataLba + (c - 2) * fs.sectorsPerCluster +
        p % fs.clusterSize / 512 := by
      rw [Fat32.sectorOf, hcluster, getD_eq_getElem?_getD, hj, getD_some]
    have hbyte : p % 512 = p % fs.clusterSize % 512 := by
      rw [Fat32.clusterSize, Nat.mod_mod_of_dvd _ (Dvd.intro_left _ rfl)]
    rw [if_pos hcluster, hof, if_pos ⟨by omega, by omega⟩, Nat.add_sub_cancel_left, Mem.slice,
      if_pos (Nat.mod_lt _ (by norm_num)), hbyte, Nat.mul_comm _ 512, Nat.div_add_mod]
  · rw [if_neg hcluster, if_neg]
    · rfl
    intro hin
    refine hcluster ?_
    have hin' := hg.sectorOf_mem hget
    have heq : cs[p / fs.clusterSize] = c :=
      FatGeometry.inCluster_unique hin' ⟨hin.1, hin.2⟩ (hcs.used _ (getElem_mem hdiv)).1 hk2
    rw [heq] at hget
    exact (getElem?_inj hdiv hcs.nodup).mp (hget.trans hj.symm)

omit hg hcs in
theorem slot_of_byte (fs : Fat32) (p : ℕ) : p % fs.clusterSize / dirEntryBytes =
      p / dirEntryBytes % fs.dirSlots ∧ p % fs.clusterSize % dirEntryBytes = p % dirEntryBytes ∧
      p / fs.clusterSize = p / dirEntryBytes / fs.dirSlots := by
  rw [← dirSlots_mul fs, Nat.mul_comm, Nat.mod_mul_right_div_self, Nat.mod_mul_right_mod,
    Nat.div_div_eq_div_mul]
  exact ⟨rfl, rfl, rfl⟩

theorem marked_cluster {i' : ℕ} (hj : cs[j]? = some c) (hi : i < fs.dirSlots) :
    Marked (fs.clusterBytes d c) i i' ↔
      Marked (fs.fileByte d cs) (j * fs.dirSlots + i) (j * fs.dirSlots + i') := by
  have hattr : ∀ k < i, entAttr (fs.clusterBytes d c) k =
      entAttr (fs.fileByte d cs) (j * fs.dirSlots + k) := fun k hk =>
    (sameSlot_cluster hg hcs hj (hk.trans hi)).attr
  refine and_congr (by omega) ⟨fun h k hk hk' => ?_, fun h k hk hk' => ?_⟩
  · obtain ⟨k, rfl⟩ : ∃ e, k = j * fs.dirSlots + e := ⟨k - j * fs.dirSlots, by omega⟩
    rw [← hattr k (by omega)]
    exact h k (by omega) (by omega)
  · rw [hattr k hk]
    exact h _ (by omega) (by omega)

theorem fileByte_unlinked (hc : cs[g / fs.dirSlots]? = some c) (hp : p < cs.length * fs.clusterSize) :
    fs.fileByte (d₁.write (fs.clusterToLba c) fs.sectorsPerCluster
        (markDeleted (fs.clusterBytes d c) (g % fs.dirSlots))) cs p =
      if p / dirEntryBytes / fs.dirSlots = g / fs.dirSlots then
        if p % dirEntryBytes = 0 ∧ Marked (fs.fileByte d cs) g (p / dirEntryBytes) then deletedMark
        else fs.fileByte d cs p
      else fs.fileByte d₁ cs p := by
  obtain ⟨hslot, hmod, hdiv⟩ := slot_of_byte fs p
  have hpos := dirSlots_pos hg
  rw [fileByte_writeCluster hg hcs hc hp, hdiv]
  refine ite_congr rfl (fun hsame => ?_) fun _ => rfl
  have hg' : g / fs.dirSlots * fs.dirSlots + g % fs.dirSlots = g := Nat.div_add_mod' g _
  have hp' : g / fs.dirSlots * fs.dirSlots + p / dirEntryBytes % fs.dirSlots = p / dirEntryBytes := by
    rw [← hsame]
    exact Nat.div_add_mod' _ _
  have hbyte : fs.clusterBytes d c (p % fs.clusterSize) = fs.fileByte d cs p := by
    rw [hg.clusterBytes_at hcs hc (Nat.mod_lt _ hg.clusterSize_pos), ← hsame, ← hdiv, Nat.div_add_mod']
  have hmarked : Marked (fs.clusterBytes d c) (g % fs.dirSlots) (p / dirEntryBytes % fs.dirSlots) ↔ _ :=
    marked_cluster hg hcs hc (Nat.mod_lt g hpos)
  rw [hg', hp'] at hmarked
  rw [markDeleted_apply, hmod, hslot, hbyte]
  exact if_congr (and_congr_right fun _ => hmarked) rfl rfl

end Written

variable {l x : ℕ}

theorem freeLoop_bytes (fs : Fat32) (hx : x < 512) : ∀ (fuel cluster : ℕ) {d d' : FatDisk},
    fs.freeLoop fuel cluster d = some d' → d'.sector l x = d.sector l x ∨ d'.sector l x = 0
  | 0, _, _, _, h => by simp [Fat32.freeLoop] at h
  | fuel + 1, cluster, d, d', h => by
    rw [Fat32.freeLoop] at h
    split_ifs at h with hc
    · have hentry : (fs.setEntry d cluster 0).sector l x = d.sector l x ∨
          (fs.setEntry d cluster 0).sector l x = 0 := by
        rw [Fat32.setEntry, FatDisk.sector_write_one]
        split_ifs with hl
        · rw [Mem.slice_apply hx, Nat.zero_add, Mem.writeLE, FatDisk.read_one hx, hl]
          split_ifs
          · simp
          · exact .inl rfl
        · exact .inl rfl
      rcases freeLoop_bytes fs hx fuel _ h with hsame | hzero
      · rwa [hsame]
      · exact .inr hzero
    · rw [Option.some.inj h]
      exact .inl rfl

theorem freeClusterChain_bytes (fs : Fat32) {d d' : FatDisk} (hx : x < 512)
    (h : fs.freeClusterChain fuel cluster d = some d') :
    d'.sector l x = d.sector l x ∨ d'.sector l x = 0 := by
  rw [Fat32.freeClusterChain] at h
  split_ifs at h
  · rw [Option.some.inj h]
    exact .inl rfl
  · exact freeLoop_bytes fs hx _ _ h

/-! ## What `unlink` should do -/

/-- The slot `h` is one of the long-name slots of the slot `g`: they are right before it. -/
def Own (m : Mem) (g h : ℕ) : Prop := h < g ∧ ∀ k < g, h ≤ k → IsLong m k

instance (m : Mem) (g h : ℕ) : Decidable (Own m g h) := by unfold Own; infer_instance

/-- Slot `g` and its long-name slots have been deleted, and the chain `gs` is free. -/
structure Deletes (fs : Fat32) (d d' : FatDisk) (cs : List ℕ) (g : ℕ) (gs : List ℕ) : Prop where
  slots : ∀ p < cs.length * fs.clusterSize, fs.fileByte d' cs p =
    if p % dirEntryBytes = 0 ∧
      (p / dirEntryBytes = g ∨ Own (fs.fileByte d cs) g (p / dirEntryBytes)) then deletedMark
    else fs.fileByte d cs p
  table : ∀ k < fs.entries, fs.getNextCluster d' k = if k ∈ gs then 0 else fs.getNextCluster d k
  others : ∀ l, ¬ fs.InFat l → (∀ k ∈ cs, ¬ fs.InCluster k l) → d'.sector l = d.sector l

/-- Both find nothing, or `unlink` deletes the entry that `finddir` finds. -/
def UnlinkAgrees (fs : Fat32) (N fuel dir : ℕ) (name : List UInt8) (d : FatDisk) (cs : List ℕ) : Prop :=
  (fs.finddir fuel dir name d = some none ∧ fs.unlink fuel dir name d = some (false, d)) ∨
  ∃ g gs d', g < cs.length * fs.dirSlots ∧ fs.finddir fuel dir name d = some (some (foundAt fs d cs g)) ∧
    TableChain N endMark (fs.getNextCluster d) (entCluster (fs.fileByte d cs) g) gs ∧
    fs.unlink fuel dir name d = some (true, d') ∧ Deletes fs d d' cs g gs

/-- The two scans stop at the same slot: `unlink` compares eleven bytes and reads beyond the end marker. -/
structure SameSlots (m : Mem) (name : List UInt8) (S n : ℕ) : Prop where
  reached : ∀ g < n, (∀ h < g, entFirst m h ≠ 0 ∧ ¬Accepts m name h) → (Raw m name g ↔ Accepts m name g)
  beyond : (∀ g, ¬FirstFound m name n g) → ∀ g < n, Seen m S g → ¬Raw m name g

/-- The long-name slots of the entry are in its cluster, and no deleted slot stands among them. -/
structure SameMarks (m : Mem) (S g : ℕ) : Prop where
  near : ∀ h, Own m g h → h / S = g / S
  own : ∀ h < g, h / S = g / S → SlotLive m h → Marked m g h → Own m g h

theorem sameSlots_iff : SameSlots m name S n ↔ ∀ g, FirstFound m name n g ↔ FirstRaw m name S n g := by
  constructor
  · rintro ⟨hreached, hbeyond⟩
    have hraw : ∀ g, FirstFound m name n g → FirstRaw m name S n g := by
      rintro g ⟨hlt, hacc, hfirst⟩
      refine ⟨hlt, ⟨(hreached g hlt hfirst).mpr hacc, fun e _ he => (hfirst e he).1⟩, ?_⟩
      rintro h hh ⟨hraw, -⟩
      exact (hfirst h hh).2 ((hreached h (hh.trans hlt) fun k hk => hfirst k (hk.trans hh)).mp hraw)
    refine fun g => ⟨hraw g, fun hg => ?_⟩
    by_cases hnone : ∀ f, ¬FirstFound m name n f
    · exact absurd hg.2.1.1 (hbeyond hnone g hg.1 hg.2.1.2)
    · push Not at hnone
      obtain ⟨f, hf⟩ := hnone
      exact (hraw f hf).unique hg ▸ hf
  · intro hiff
    refine ⟨fun g hlt hfirst => ⟨fun hraw => ?_, fun hacc => ((hiff g).mp ⟨hlt, hacc, hfirst⟩).2.1.1⟩,
      fun hnone g hlt hseen hraw => ?_⟩
    · -- The first slot that `unlink` takes is `g` or comes before it, and `finddir` takes it.
      by_contra hacc
      have hseen : Seen m S g := fun e _ he => (hfirst e he).1
      obtain ⟨f, hf⟩ := exists_firstRaw hlt ⟨hraw, hseen⟩
      have hle : f ≤ g := by
        by_contra hgt
        exact hf.2.2 g (by omega) ⟨hraw, hseen⟩
      have hfound := (hiff f).mpr hf
      rcases hle.lt_or_eq with h | rfl
      · exact (hfirst f h).2 hfound.2.1
      · exact hacc hfound.2.1
    · obtain ⟨f, hf⟩ := exists_firstRaw hlt ⟨hraw, hseen⟩
      exact hnone f ((hiff f).mpr hf)

section Agree

variable {fs : Fat32} {N dir fuel : ℕ} {d : FatDisk} {cs : List ℕ} {name : List UInt8}
  (hg : FatGeometry fs N) (hcs : fs.Chain N d dir cs)
include hg hcs

omit hg hcs in
theorem slot_lt {h : ℕ} (hh : h < cs.length * fs.dirSlots) :
    h * dirEntryBytes < cs.length * fs.clusterSize := by
  rw [← dirSlots_mul fs, ← Nat.mul_assoc]
  exact Nat.mul_lt_mul_of_pos_right hh (by decide)

theorem foundAt_inj {h : ℕ} (hglt : g < cs.length * fs.dirSlots) (hhlt : h < cs.length * fs.dirSlots)
    (heq : foundAt fs d cs g = foundAt fs d cs h) : g = h := by
  have hlba : fs.sectorOf cs (g * dirEntryBytes) = fs.sectorOf cs (h * dirEntryBytes) :=
    congrArg FatFound.entryLba heq
  have hoff : g * dirEntryBytes % 512 = h * dirEntryBytes % 512 := congrArg FatFound.entryOffset heq
  have hpos := hg.clusterSize_pos
  have hdiv := hg.sectorOf_inj hcs.nodup (fun x hx => (hcs.used x hx).1)
    ((Nat.div_lt_iff_lt_mul hpos).mpr (slot_lt hglt))
    ((Nat.div_lt_iff_lt_mul hpos).mpr (slot_lt hhlt)) hlba
  change g * 32 % 512 = h * 32 % 512 at hoff
  change g * 32 / 512 = h * 32 / 512 at hdiv
  omega

theorem finddir_found (hdir : dir ≠ 0) (hfuel : cs.length < fuel)
    (h : FirstFound (fs.fileByte d cs) name (cs.length * fs.dirSlots) g) :
    fs.finddir fuel dir name d = some (some (foundAt fs d cs g)) := by
  rw [finddir_eq hg hcs hdir hfuel, firstFrom_accepts_iff.mpr h]
  rfl

theorem finddir_missing (hdir : dir ≠ 0) (hfuel : cs.length < fuel)
    (h : ∀ g, ¬FirstFound (fs.fileByte d cs) name (cs.length * fs.dirSlots) g) :
    fs.finddir fuel dir name d = some none := by
  have hnone : firstFrom (entFirst (fs.fileByte d cs) · = 0) (Accepts (fs.fileByte d cs) name) 0
      (cs.length * fs.dirSlots) = none :=
    eq_none_iff_forall_ne_some.mpr fun g hfound => h g (firstFrom_accepts_iff.mp hfound)
  rw [finddir_eq hg hcs hdir hfuel, hnone]
  rfl

variable {d₁ : FatDisk}

omit hcs in
theorem fileByte_of_touches (htouch : Touches fs.InFat d d₁)
    (hp : p < cs.length * fs.clusterSize) : fs.fileByte d₁ cs p = fs.fileByte d cs p := by
  have hlt : p / fs.clusterSize < cs.length := Nat.div_lt_of_lt_mul (by rwa [Nat.mul_comm])
  have hin := hg.sectorOf_mem (getElem?_eq_getElem hlt)
  rw [Fat32.fileByte, Fat32.fileByte, htouch.sector _ (hg.not_inFat hin)]

variable {gs : List ℕ}

theorem deletes_iff (hc : cs[g / fs.dirSlots]? = some c) (hlt : g < cs.length * fs.dirSlots)
    (hbefore : ∀ h < g, entFirst (fs.fileByte d cs) h ≠ 0) (htouch : Touches fs.InFat d d₁)
    (htable : ∀ k < fs.entries, fs.getNextCluster d₁ k = if k ∈ gs then 0 else fs.getNextCluster d k) :
    Deletes fs d (d₁.write (fs.clusterToLba c) fs.sectorsPerCluster
        (markDeleted (fs.clusterBytes d c) (g % fs.dirSlots))) cs g gs ↔
      SameMarks (fs.fileByte d cs) fs.dirSlots g := by
  obtain ⟨hk2, hkN, -⟩ := hcs.used c (mem_of_getElem? hc)
  have hcluster : ∀ l, fs.clusterToLba c ≤ l ∧ l < fs.clusterToLba c + fs.sectorsPerCluster →
      fs.InCluster c l := by
    intro l hl
    rwa [hg.clusterToLba_eq hkN hk2] at hl
  constructor
  · intro hdel
    refine ⟨fun h hown => ?_, fun h hh hsame hlive hmark => ?_⟩
    · have hp := slot_lt (hown.1.trans hlt)
      have hslot := hdel.slots _ hp
      have hspec : 0 = 0 ∧ (h = g ∨ Own (fs.fileByte d cs) g h) := ⟨rfl, .inr hown⟩
      rw [fileByte_unlinked hg hcs hc hp, (slot_byte h).1, (slot_byte h).2, if_pos hspec] at hslot
      by_contra hne
      rw [if_neg hne, fileByte_of_touches hg htouch hp] at hslot
      exact (hown.2 h hown.1 le_rfl).1.2 hslot
    · have hp := slot_lt (hh.trans hlt)
      have hslot := hdel.slots _ hp
      rw [fileByte_unlinked hg hcs hc hp, (slot_byte h).1, (slot_byte h).2, if_pos hsame,
        if_pos ⟨rfl, hmark⟩] at hslot
      by_contra hown
      rw [if_neg (by rintro ⟨-, heq | h⟩; exacts [hh.ne heq, hown h])] at hslot
      exact hlive.2 hslot.symm
  rintro ⟨hnear, hown⟩
  refine ⟨fun p hp => ?_, fun k hk => ?_, fun l hfat hl => ?_⟩
  · rw [fileByte_unlinked hg hcs hc hp]
    by_cases hmod : p % dirEntryBytes = 0
    · have hp' : p / dirEntryBytes * dirEntryBytes = p :=
        Nat.div_mul_cancel (Nat.dvd_of_mod_eq_zero hmod)
      by_cases hsame : p / dirEntryBytes / fs.dirSlots = g / fs.dirSlots
      · rw [if_pos hsame]
        by_cases hmark : Marked (fs.fileByte d cs) g (p / dirEntryBytes)
        · rw [if_pos ⟨hmod, hmark⟩]
          by_cases hspec : p / dirEntryBytes = g ∨ Own (fs.fileByte d cs) g (p / dirEntryBytes)
          · rw [if_pos ⟨hmod, hspec⟩]
          -- A marked slot that is not an own one has been deleted before.
          rw [if_neg fun h => hspec h.2]
          push Not at hspec
          have hh : p / dirEntryBytes < g := lt_of_le_of_ne hmark.1 hspec.1
          by_contra hne
          refine hspec.2 (hown _ hh hsame ⟨hbefore _ hh, fun hdel => hne ?_⟩ hmark)
          rw [← hdel, entFirst, hp']
        · rw [if_neg fun h => hmark h.2, if_neg]
          rintro ⟨-, heq | hown⟩
          · exact hmark ⟨heq.le, fun k hk hk' => by omega⟩
          · exact hmark ⟨hown.1.le, fun k hk hk' => (hown.2 k hk hk').2⟩
      · rw [if_neg hsame, fileByte_of_touches hg htouch hp, if_neg]
        rintro ⟨-, heq | hown⟩
        · exact hsame (by rw [heq])
        · exact hsame (hnear _ hown)
    · have hno : ∀ q : Prop, ¬(p % dirEntryBytes = 0 ∧ q) := fun q h => hmod h.1
      rw [if_neg (hno _), if_neg (hno _), fileByte_of_touches hg htouch hp, ite_self]
  · rw [← htable k hk]
    refine hg.getNextCluster_congr (fun l hl => ?_) hk
    rw [FatDisk.sector_write, if_neg fun hin => hg.not_inFat (hcluster l hin) hl]
  · rw [FatDisk.sector_write,
      if_neg fun hin => hl c (mem_of_getElem? hc) (hcluster l hin), htouch.sector l hfat]

theorem unlink_none (hdir : dir ≠ 0) (hfuel : cs.length < fuel)
    (hname : ¬(name = [dotChar] ∨ name = [dotChar, dotChar]))
    (h : ∀ g, ¬FirstRaw (fs.fileByte d cs) name fs.dirSlots (cs.length * fs.dirSlots) g) :
    fs.unlink fuel dir name d = some (false, d) := by
  rw [Fat32.unlink, if_neg hname]
  refine unlinkLoop_none hg hcs (.inl (chain_first hcs hdir)) hfuel fun g _ hlt hraw => ?_
  obtain ⟨f, hf⟩ := exists_firstRaw hlt hraw
  exact h f hf

theorem unlink_some (hdir : dir ≠ 0) (hfuel : 2 * N < fuel)
    (hname : ¬(name = [dotChar] ∨ name = [dotChar, dotChar]))
    (h : FirstRaw (fs.fileByte d cs) name fs.dirSlots (cs.length * fs.dirSlots) g) :
    ∃ k c, cs[g / fs.dirSlots]? = some c ∧ N < k ∧ fs.unlink fuel dir name d =
        (fs.freeClusterChain k (entCluster (fs.fileByte d cs) g) d).map fun d₁ =>
          (true, d₁.write (fs.clusterToLba c) fs.sectorsPerCluster
            (markDeleted (fs.clusterBytes d c) (g % fs.dirSlots))) := by
  have hlen := hcs.length_le
  obtain ⟨k, c, hc, hk, hloop⟩ := unlinkLoop_some hg hcs (chain_first hcs hdir)
    (show cs.length < fuel + 0 by omega) (by rw [Nat.zero_mul]; exact Nat.zero_le g) h.1 h.2.1
    fun e _ he => h.2.2 e he
  have hlt := (List.getElem?_eq_some_iff.mp hc).1
  refine ⟨k, c, hc, by omega, ?_⟩
  rw [Fat32.unlink, if_neg hname, hloop]

theorem unlinked_slot {u : ℕ} (hc : cs[u / fs.dirSlots]? = some c)
    (hult : u < cs.length * fs.dirSlots) (hglt : g < cs.length * fs.dirSlots)
    (hu : SlotLive (fs.fileByte d cs) u) (hlive : SlotLive (fs.fileByte d cs) g) {first : ℕ}
    (hfree : fs.freeClusterChain k first d = some d₁)
    (hdel : Deletes fs d (d₁.write (fs.clusterToLba c) fs.sectorsPerCluster
      (markDeleted (fs.clusterBytes d c) (u % fs.dirSlots))) cs g gs) : u = g := by
  have hself : 0 = 0 ∧ Marked (fs.fileByte d cs) u u := ⟨rfl, le_rfl, fun k hk hk' => by omega⟩
  have hat := hdel.slots _ (slot_lt hult)
  rw [fileByte_unlinked hg hcs hc (slot_lt hult), (slot_byte u).1, (slot_byte u).2,
    if_pos rfl, if_pos hself] at hat
  by_contra hne
  have hown : Own (fs.fileByte d cs) g u := by
    by_contra hown
    rw [if_neg (by rintro ⟨-, heq | h⟩; exacts [hne heq, hown h])] at hat
    exact hu.2 hat.symm
  -- The slot `g` comes after `u`: it is not marked, and a freed table entry is zero.
  have hspec : 0 = 0 ∧ (g = g ∨ Own (fs.fileByte d cs) g g) := ⟨rfl, .inl rfl⟩
  have hmark : ¬(0 = 0 ∧ Marked (fs.fileByte d cs) u g) := fun h => not_lt.mpr h.2.1 hown.1
  have hgat := hdel.slots _ (slot_lt hglt)
  rw [fileByte_unlinked hg hcs hc (slot_lt hglt), (slot_byte g).1, (slot_byte g).2, if_pos hspec,
    if_neg hmark] at hgat
  split_ifs at hgat
  · exact hlive.2 hgat
  · rcases freeClusterChain_bytes fs (Nat.mod_lt _ (by norm_num)) hfree with hsame | hzero
    · exact hlive.2 (hsame.symm.trans hgat)
    · exact absurd (hzero.symm.trans hgat) (by decide)

end Agree

/-- A volume as `smallDisk`, with entries in the directory in cluster 3. -/
def entriesDisk (entries : List UInt8) : FatDisk :=
  ⟨fun l x => if l = 0 ∧ x < 16 then 0xFF else if l = 5 then entries.getD x 0 else 0, [], []⟩

theorem entriesDisk_chain (entries : List UInt8) (hk : 2 ≤ k) (hk' : k < 4) :
    TableChain 256 endMark (smallFat.getNextCluster (entriesDisk entries)) k [k] := by
  have hentry : smallFat.getNextCluster (entriesDisk entries) k = takenMark := by
    rw [← if_pos (c := k < 4) (t := takenMark) (e := 0) hk', ← smallDisk_table k (by omega)]
    refine smallFat_geometry.getNextCluster_congr (fun l hl => ?_) (by change k < 256; omega)
    have hl5 : l ≠ 5 := by have := hl.2; change l < 0 + 2 at this; omega
    funext x
    change (if l = 0 ∧ x < 16 then 0xFF else if l = 5 then entries.getD x 0 else 0) = _
    rw [if_neg hl5]
    rfl
  refine .singleton hk (by omega) ?_ (by decide)
  rw [hentry]
  decide

/-- The entry of the file `A.TXT` in cluster 2. -/
def plainEntry : List UInt8 :=
  [65, 32, 32, 32, 32, 32, 32, 32, 84, 88, 84, 0x20] ++ List.replicate 14 0 ++ [2, 0, 0, 0, 0, 0]

/-- The entries of the file `longname1.txt` in cluster 2. -/
def longEntry : List UInt8 :=
  [0x41, 108, 0, 111, 0, 110, 0, 103, 0, 110, 0, 0x0F, 0, 0, 97, 0, 109, 0, 101, 0, 49, 0, 46, 0, 116, 0,
    0, 0, 120, 0, 116, 0] ++
  [76, 79, 78, 71, 78, 65, 126, 49, 84, 88, 84, 0x20] ++ List.replicate 14 0 ++ [2, 0, 0, 0, 0, 0]

end KeonOS
