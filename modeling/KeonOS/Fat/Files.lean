import KeonOS.Fat.Table

/-!
# Reading and writing FAT32 files

A file is a chain of clusters. `FAT32_File::write` goes from the first cluster to the one of every sector
it writes and makes the chain longer on the way; `FAT32_File::read` copies whole clusters.

* **`writeLoop_spec`**: the whole loop: the chain afterwards, the sectors that have been written, and the
  bytes of the file;
* **`readFile_spec`**: the bytes that are read.
-/

namespace KeonOS

open List

/-! ## The places of the bytes -/

namespace Fat32

variable (fs : Fat32)

/-- The sector of byte `p` of the file with the clusters `cs`. -/
def sectorOf (cs : List ℕ) (p : ℕ) : ℕ :=
  fs.dataLba + (cs.getD (p / fs.clusterSize) 0 - 2) * fs.sectorsPerCluster + p % fs.clusterSize / 512

def fileByte (d : FatDisk) (cs : List ℕ) : Mem := fun p => d.sector (fs.sectorOf cs p) (p % 512)

end Fat32

namespace FatGeometry

variable {fs : Fat32} {N k k' l p q : ℕ} {cs ds : List ℕ} {d d' : FatDisk}

theorem clusterSize_pos (hg : FatGeometry fs N) : 0 < fs.clusterSize :=
  Nat.mul_pos hg.sectors (by norm_num)

theorem cluster_fits (hg : FatGeometry fs N) (hk : k < N) (hk2 : 2 ≤ k) :
    fs.dataLba + (k - 2) * fs.sectorsPerCluster + fs.sectorsPerCluster ≤ 2 ^ 32 := by
  have hfits := hg.fits
  have hmul : (k - 2 + 1) * fs.sectorsPerCluster ≤ (N - 2) * fs.sectorsPerCluster :=
    Nat.mul_le_mul_right _ (by omega)
  rw [Nat.add_mul, Nat.one_mul] at hmul
  omega

theorem clusterToLba_eq (hg : FatGeometry fs N) (hk : k < N) (hk2 : 2 ≤ k) :
    fs.clusterToLba k = fs.dataLba + (k - 2) * fs.sectorsPerCluster := by
  have hfits := hg.cluster_fits hk hk2
  have hpos := hg.sectors
  have hmarks := hg.marks
  have hmark : endMark < 2 ^ 28 := by decide
  have hsub : (k + (2 ^ 32 - 2)) % 2 ^ 32 = k - 2 := by omega
  rw [Fat32.clusterToLba, hsub, Nat.mod_eq_of_lt (by omega)]

theorem inCluster_unique (h : fs.InCluster k l) (h' : fs.InCluster k' l) (hk : 2 ≤ k) (hk' : 2 ≤ k') :
    k = k' := by
  obtain ⟨h1, h2⟩ := h
  obtain ⟨h1', h2'⟩ := h'
  have hstep : ∀ {a b : ℕ}, a < b → a * fs.sectorsPerCluster + fs.sectorsPerCluster ≤
      b * fs.sectorsPerCluster := by
    intro a b hab
    have := Nat.mul_le_mul_right fs.sectorsPerCluster (show a + 1 ≤ b from hab)
    rwa [Nat.add_mul, Nat.one_mul] at this
  rcases lt_trichotomy (k - 2) (k' - 2) with hlt | heq | hgt
  · have := hstep hlt
    omega
  · omega
  · have := hstep hgt
    omega

theorem not_inFat (hg : FatGeometry fs N) (h : fs.InCluster k l) : ¬ fs.InFat l := by
  rintro ⟨-, hlt⟩
  have := hg.table_below
  have := h.1
  omega

theorem sectorOf_mem (hg : FatGeometry fs N) (hk : cs[p / fs.clusterSize]? = some k) :
    fs.InCluster k (fs.sectorOf cs p) := by
  have hsector : p % fs.clusterSize / 512 < fs.sectorsPerCluster := Nat.div_lt_of_lt_mul (by
      rw [Nat.mul_comm]
      exact Nat.mod_lt _ hg.clusterSize_pos)
  rw [Fat32.sectorOf, getD_eq_getElem?_getD, hk, Option.getD_some]
  exact ⟨by omega, by omega⟩

theorem sectorOf_inj (hg : FatGeometry fs N) (hnodup : cs.Nodup) (hcs : ∀ x ∈ cs, 2 ≤ x)
    (hp : p / fs.clusterSize < cs.length) (hq : q / fs.clusterSize < cs.length)
    (h : fs.sectorOf cs p = fs.sectorOf cs q) : p / 512 = q / 512 := by
  have hp' := getElem?_eq_getElem hp
  have hq' := getElem?_eq_getElem hq
  have hmem := h ▸ hg.sectorOf_mem hp'
  have heq := inCluster_unique hmem (hg.sectorOf_mem hq') (hcs _ (getElem_mem hp))
    (hcs _ (getElem_mem hq))
  have hindex : p / fs.clusterSize = q / fs.clusterSize := (hnodup.getElem_inj_iff).mp heq
  have hinner : p % fs.clusterSize / 512 = q % fs.clusterSize / 512 := by
    rw [Fat32.sectorOf, Fat32.sectorOf, hindex] at h
    omega
  have hsplit : ∀ x, x / 512 = x / fs.clusterSize * fs.sectorsPerCluster + x % fs.clusterSize / 512 := by
    intro x
    conv_lhs => rw [← Nat.div_add_mod x fs.clusterSize]
    rw [Fat32.clusterSize, Nat.mul_right_comm, Nat.mul_comm _ 512, Nat.mul_add_div (by norm_num),
      Nat.mul_comm fs.sectorsPerCluster]
  rw [hsplit p, hsplit q, hindex, hinner]

theorem fileByte_append (hp : p / fs.clusterSize < cs.length) :
    fs.fileByte d (cs ++ ds) p = fs.fileByte d cs p := by
  simp only [Fat32.fileByte, Fat32.sectorOf, getD_eq_getElem?_getD, getElem?_append_left hp]

end FatGeometry

/-! ## The walk -/

def FatDisk.Found (N : ℕ) (d : FatDisk) : Prop := ∀ k ∈ d.allocated, k ≠ 0 ∧ k < N

variable {d d' : FatDisk} {lba : ℕ}

theorem FatDisk.found_write {N : ℕ} {count : ℕ} {buffer : Mem} :
    (d.write lba count buffer).Found N ↔ d.Found N := by
  rw [Found, Found, allocated_write]

structure FatDisk.Grows (d d' : FatDisk) : Prop where
  allocated : d.allocated ⊆ d'.allocated
  written : d.written ⊆ d'.written

namespace FatDisk.Grows

theorem refl (d : FatDisk) : d.Grows d := ⟨List.Subset.refl _, List.Subset.refl _⟩

theorem trans {d'' : FatDisk} (h : d.Grows d') (h' : d'.Grows d'') : d.Grows d'' :=
  ⟨List.Subset.trans h.allocated h'.allocated, List.Subset.trans h.written h'.written⟩

theorem write (d : FatDisk) {lba count : ℕ} {buffer : Mem} : d.Grows (d.write lba count buffer) := by
  refine ⟨?_, ?_⟩
  · rw [allocated_write]
    exact List.Subset.refl _
  · rw [written_write]
    exact subset_append_right ..

end FatDisk.Grows

namespace Fat32

variable (fs : Fat32)

variable {n cluster offset toWrite : ℕ} {f : FatFile} {bytes : Mem} {d : FatDisk}

theorem writeWalk_next (h : ¬ endMark ≤ fs.getNextCluster d cluster) :
    fs.writeWalk (n + 1) cluster d = fs.writeWalk n (fs.getNextCluster d cluster) d := by
  rw [writeWalk, if_neg h]

theorem writeWalk_last (h : endMark ≤ fs.getNextCluster d cluster) :
    fs.writeWalk (n + 1) cluster d = fs.writeWalk n (fs.allocateCluster d).1
      (fs.setNextCluster (fs.allocateCluster d).2 cluster (fs.allocateCluster d).1) := by
  rw [writeWalk, if_pos h]

theorem writeSector_eq (h : fs.writeWalk (offset / fs.clusterSize) f.firstCluster d = (cluster, d'))
    (hlba : (fs.clusterToLba cluster + offset % fs.clusterSize / 512) % 2 ^ 32 = lba) :
    fs.writeSector f offset toWrite bytes d =
      d'.write lba 1 ((d'.read lba 1).copy (offset % 512) toWrite bytes) := by
  rw [writeSector, h, ← hlba]

theorem allocated_allocateCluster (d : FatDisk) :
    (fs.allocateCluster d).2.allocated = (fs.allocateCluster d).1 :: d.allocated := by
  unfold allocateCluster
  split
  · rfl
  · rw [FatDisk.allocated_took, FatDisk.allocated_write]

theorem grows_allocateCluster (d : FatDisk) : d.Grows (fs.allocateCluster d).2 := by
  refine ⟨?_, ?_⟩
  · rw [allocated_allocateCluster]
    exact subset_cons_self ..
  · unfold allocateCluster
    split
    · exact List.Subset.refl _
    · exact (FatDisk.Grows.write d).written

theorem grows_writeWalk : ∀ (n cluster : ℕ) (d : FatDisk), d.Grows (fs.writeWalk n cluster d).2
  | 0, _, d => .refl d
  | n + 1, cluster, d => by
    by_cases hend : endMark ≤ fs.getNextCluster d cluster
    · rw [fs.writeWalk_last hend]
      exact ((fs.grows_allocateCluster d).trans (.write _)).trans (grows_writeWalk n _ _)
    · rw [fs.writeWalk_next hend]
      exact grows_writeWalk n _ d

theorem grows_writeSector : d.Grows (fs.writeSector f offset toWrite bytes d) := by
  have h := fs.grows_writeWalk (offset / fs.clusterSize) f.firstCluster d
  rcases hwalk : fs.writeWalk (offset / fs.clusterSize) f.firstCluster d with ⟨cluster, d'⟩
  rw [hwalk] at h
  rw [fs.writeSector_eq hwalk rfl]
  exact h.trans (.write d')

theorem grows_writeLoop (f : FatFile) (offset size : ℕ) (buffer : Mem) :
    ∀ (fuel written : ℕ) (d : FatDisk), d.Grows (fs.writeLoop f offset size buffer fuel written d).2
  | 0, _, d => .refl d
  | fuel + 1, written, d => by
    rw [writeLoop]
    split
    · exact fs.grows_writeSector.trans (grows_writeLoop f offset size buffer fuel _ _)
    · exact .refl d

end Fat32

namespace FatGeometry

variable {fs : Fat32} {N c : ℕ} {f : FatFile}

theorem writeWalk_spec (hg : FatGeometry fs N) : ∀ {n i cluster : ℕ} {d : FatDisk} {cs : List ℕ},
    fs.Linked N d → fs.Chain N d c cs →
    cs[i]? = some cluster →
    (i + n + 1 - cs.length ≤ freeCount N (fs.getNextCluster d) ∨ (fs.writeWalk n cluster d).2.Found N) →
    ∃ ks, ks.length = i + n + 1 - cs.length ∧ TableExtend N endMark (fs.getNextCluster d)
        (fs.getNextCluster (fs.writeWalk n cluster d).2) c cs ks ∧
      (cs ++ ks)[i + n]? = some (fs.writeWalk n cluster d).1 ∧
      Touches fs.InFat d (fs.writeWalk n cluster d).2
  | 0, i, cluster, d, cs, ht, hcs, hi, _ => by
    have hlt := (List.getElem?_eq_some_iff.mp hi).1
    have hi' : (cs ++ [])[i + 0]? = some cluster := by rwa [append_nil]
    exact ⟨[], by simp; omega, .refl ht hcs, hi', .refl d⟩
  | n + 1, i, cluster, d, cs, ht, hcs, hi, hfree => by
    have hmarks := hg.marks
    have hlt := (List.getElem?_eq_some_iff.mp hi).1
    by_cases hlast : i + 1 < cs.length
    · -- the chain goes on
      obtain ⟨hnext, hin⟩ := hcs.next_in hi hlast
      rw [fs.writeWalk_next (by omega)] at hfree ⊢
      obtain ⟨ks, hlen, hext, hres, htouch⟩ := writeWalk_spec hg ht hcs hnext
        (hfree.imp_left fun h => by omega)
      exact ⟨ks, by omega, hext, by rw [← hres]; congr 1; omega, htouch⟩
    -- the chain ends here: a cluster is taken and linked
    rw [fs.writeWalk_last (hcs.last_at hi (by omega)).1] at hfree ⊢
    have htaken : 0 < freeCount N (fs.getNextCluster d) ∨
        (fs.allocateCluster d).1 ≠ 0 ∧ (fs.allocateCluster d).1 < N := by
      refine hfree.imp (fun h => by omega) fun h => ?_
      refine h _ ((fs.grows_writeWalk n _ _).allocated ?_)
      rw [fs.allocated_setNextCluster, fs.allocated_allocateCluster]
      exact mem_cons_self ..
    obtain ⟨k, d', hk, hd', hstep, hget, hlink, hcount⟩ := hg.link_next ht hcs hi hlast htaken
    rw [hk, hd'] at hfree ⊢
    obtain ⟨ks, hlen, hext, hres, htouch⟩ := writeWalk_spec hg hstep.table hstep.chain hget
      (hfree.imp_left fun h => by rw [length_append, length_singleton]; omega)
    rw [length_append, length_singleton] at hlen
    refine ⟨k :: ks, by rw [length_cons]; omega, hstep.trans hext, ?_, hlink.trans htouch⟩
    rw [← hres, append_assoc _ [k], singleton_append]
    congr 1
    omega

/-! ## One sector -/

variable {offset toWrite p : ℕ} {bytes : Mem} {cs : List ℕ}

theorem fileByte_stored (hg : FatGeometry fs N) (hnodup : cs.Nodup) (hcs : ∀ x ∈ cs, 2 ≤ x)
    (ho : offset / fs.clusterSize < cs.length) (hw : offset % 512 + toWrite ≤ 512)
    (hother : ∀ l, ¬ fs.InFat l → l ≠ fs.sectorOf cs offset → d'.sector l = d.sector l)
    (hstored : ∀ x < 512, d'.sector (fs.sectorOf cs offset) x =
      (d.sector (fs.sectorOf cs offset)).copy (offset % 512) toWrite bytes x)
    (hp : p / fs.clusterSize < cs.length) :
    fs.fileByte d' cs p =
      if offset ≤ p ∧ p < offset + toWrite then bytes (p - offset) else fs.fileByte d cs p := by
  simp only [Fat32.fileByte]
  by_cases hsame : fs.sectorOf cs p = fs.sectorOf cs offset
  · -- the byte is in the sector that has been written
    have hdiv := hg.sectorOf_inj hnodup hcs hp ho hsame
    rw [hsame, hstored _ (Nat.mod_lt _ (by norm_num)), Mem.copy]
    by_cases hin : offset ≤ p ∧ p < offset + toWrite
    · rw [if_pos ⟨by omega, by omega⟩, if_pos hin]
      congr 1
      omega
    · rw [if_neg (by omega), if_neg hin]
  have hout : ¬ (offset ≤ p ∧ p < offset + toWrite) := by
    rintro ⟨h1, h2⟩
    apply hsame
    have hsec : p / 512 = offset / 512 := by omega
    have hcl : p / fs.clusterSize = offset / fs.clusterSize := by
      rw [Fat32.clusterSize, Nat.mul_comm, ← Nat.div_div_eq_div_mul, hsec, Nat.div_div_eq_div_mul]
    have hinner : p % fs.clusterSize / 512 = offset % fs.clusterSize / 512 := by
      rw [Fat32.clusterSize, Nat.mul_comm, Nat.mod_mul_right_div_self, hsec, Nat.mod_mul_right_div_self]
    rw [Fat32.sectorOf, Fat32.sectorOf, hcl, hinner]
  rw [if_neg hout, hother _ ?_ hsame]
  exact hg.not_inFat (hg.sectorOf_mem (getElem?_eq_getElem hp))

/-- The chain `cs` has been extended with `ks`, and the bytes have been stored at `offset` of the file. -/
structure SectorWrite (fs : Fat32) (N c offset toWrite : ℕ) (bytes : Mem) (d d' : FatDisk)
    (cs ks : List ℕ) : Prop where
  length : ks.length = offset / fs.clusterSize + 1 - cs.length
  extend : TableExtend N endMark (fs.getNextCluster d) (fs.getNextCluster d') c cs ks
  other : ∀ l, ¬ fs.InFat l → l ≠ fs.sectorOf (cs ++ ks) offset → d'.sector l = d.sector l
  stored : ∀ x < 512, d'.sector (fs.sectorOf (cs ++ ks) offset) x =
    (d.sector (fs.sectorOf (cs ++ ks) offset)).copy (offset % 512) toWrite bytes x
  written : ∀ l ∈ d'.written, l ∈ d.written ∨ fs.InFat l ∨ l = fs.sectorOf (cs ++ ks) offset

namespace SectorWrite

variable {offset toWrite : ℕ} {bytes : Mem} {d d' : FatDisk} {cs ks : List ℕ}

theorem lt_length (h : SectorWrite fs N c offset toWrite bytes d d' cs ks) :
    offset / fs.clusterSize < (cs ++ ks).length := by
  have := h.length
  rw [length_append]
  omega

theorem inCluster (hg : FatGeometry fs N) (h : SectorWrite fs N c offset toWrite bytes d d' cs ks) :
    ∃ k ∈ cs ++ ks, fs.InCluster k (fs.sectorOf (cs ++ ks) offset) :=
  ⟨_, getElem_mem h.lt_length, hg.sectorOf_mem (getElem?_eq_getElem h.lt_length)⟩

theorem touches (hg : FatGeometry fs N) (h : SectorWrite fs N c offset toWrite bytes d d' cs ks) :
    Touches (fun l => fs.InFat l ∨ ∃ k ∈ cs ++ ks, fs.InCluster k l) d d' := by
  obtain ⟨k, hk, hin⟩ := h.inCluster hg
  refine ⟨fun l hl => ?_, fun l hl => ?_⟩
  · push Not at hl
    exact h.other l hl.1 fun heq => hl.2 k hk (heq ▸ hin)
  · refine (h.written l hl).imp_right fun hl => hl.imp_right ?_
    rintro rfl
    exact ⟨k, hk, hin⟩

theorem fileByte (hg : FatGeometry fs N) (h : SectorWrite fs N c offset toWrite bytes d d' cs ks)
    (hw : offset % 512 + toWrite ≤ 512) {es : List ℕ} (hnodup : (cs ++ ks ++ es).Nodup)
    (hes : ∀ x ∈ cs ++ ks ++ es, 2 ≤ x)
    (hp : p / fs.clusterSize < (cs ++ ks ++ es).length) :
    fs.fileByte d' (cs ++ ks ++ es) p =
      if offset ≤ p ∧ p < offset + toWrite then bytes (p - offset)
      else fs.fileByte d (cs ++ ks ++ es) p := by
  have hplace : fs.sectorOf (cs ++ ks ++ es) offset = fs.sectorOf (cs ++ ks) offset := by
    simp only [Fat32.sectorOf, getD_eq_getElem?_getD, getElem?_append_left h.lt_length]
  have hlt : offset / fs.clusterSize < (cs ++ ks ++ es).length := by
    have := h.lt_length
    rw [length_append]
    omega
  refine fileByte_stored hg hnodup hes hlt hw (fun l hl hne => ?_) (fun x hx => ?_) hp
  · exact h.other l hl (hplace ▸ hne)
  · rw [hplace]
    exact h.stored x hx

end SectorWrite

theorem writeSector_spec (hg : FatGeometry fs N) (ht : fs.Linked N d)
    (hcs : fs.Chain N d f.firstCluster cs) (hf : f.firstCluster ≠ 0)
    (hfree : offset / fs.clusterSize + 1 - cs.length ≤ freeCount N (fs.getNextCluster d) ∨
      (fs.writeSector f offset toWrite bytes d).Found N) :
    ∃ ks, SectorWrite fs N f.firstCluster offset toWrite bytes d
      (fs.writeSector f offset toWrite bytes d) cs ks := by
  have hfirst : cs[0]? = some f.firstCluster := by
    cases cs with
    | nil => exact absurd hcs.chain hf
    | cons x xs => rw [hcs.chain.1]; rfl
  rcases hwalk : fs.writeWalk (offset / fs.clusterSize) f.firstCluster d with ⟨cluster, d₁⟩
  rw [fs.writeSector_eq hwalk rfl] at hfree ⊢
  rw [FatDisk.found_write] at hfree
  have hspec := hg.writeWalk_spec (n := offset / fs.clusterSize) ht hcs hfirst
  rw [hwalk, Nat.zero_add] at hspec
  obtain ⟨ks, hlen, hext, hres, htouch⟩ := hspec hfree
  have hmem := mem_of_getElem? hres
  obtain ⟨hk2, hkN, -⟩ := hext.chain.used cluster hmem
  have hlba : (fs.clusterToLba cluster + offset % fs.clusterSize / 512) % 2 ^ 32 =
      fs.sectorOf (cs ++ ks) offset := by
    have hin := (hg.sectorOf_mem hres).2
    have hfits := hg.cluster_fits hkN hk2
    rw [hg.clusterToLba_eq hkN hk2, Fat32.sectorOf, getD_eq_getElem?_getD, hres, Option.getD_some]
    rw [Fat32.sectorOf, getD_eq_getElem?_getD, hres, Option.getD_some] at hin
    exact Nat.mod_eq_of_lt (by omega)
  rw [hlba]
  have hout := hg.not_inFat (hg.sectorOf_mem hres)
  refine ⟨ks, hlen, hext.congr hg.reserved fun j hj => ?_, fun l hl hne => ?_, fun x hx => ?_,
    fun l hl => ?_⟩
  · refine hg.getNextCluster_congr (fun l hl => ?_) (lt_of_lt_of_le hj hg.clusters)
    have hne : l ≠ fs.sectorOf (cs ++ ks) offset := fun heq => hout (heq ▸ hl)
    rw [FatDisk.sector_write_one, if_neg hne]
  · rw [FatDisk.sector_write_one, if_neg hne]
    exact htouch.sector l hl
  · rw [FatDisk.sector_write_one, if_pos rfl, Mem.slice_apply hx, Nat.zero_add, Mem.copy, Mem.copy,
      FatDisk.read_one hx, htouch.sector _ hout]
  · rcases FatDisk.mem_written_write hl with hl | hl
    · exact (htouch.written l hl).imp_right .inl
    · exact .inr (.inr (by omega))

/-! ## The loop -/

/-- The chain `cs` has been extended with `ks`, and the bytes from number `written` on have been stored. -/
structure FileWrite (fs : Fat32) (N c offset size written : ℕ) (buffer : Mem) (d d' : FatDisk)
    (cs ks : List ℕ) : Prop where
  extend : TableExtend N endMark (fs.getNextCluster d) (fs.getNextCluster d') c cs ks
  touches : Touches (fun l => fs.InFat l ∨ ∃ k ∈ cs ++ ks, fs.InCluster k l) d d'
  long : offset + size ≤ 2 ^ 32 → written < size →
    (offset + size - 1) / fs.clusterSize < (cs ++ ks).length
  bytes : offset + size ≤ 2 ^ 32 → ∀ p, p / fs.clusterSize < (cs ++ ks).length →
    fs.fileByte d' (cs ++ ks) p =
      if offset + written ≤ p ∧ p < offset + size then buffer (p - offset)
      else fs.fileByte d (cs ++ ks) p

section Loop

variable {offset size written toWrite : ℕ} {buffer : Mem} {d d' d'' : FatDisk} {cs ks es : List ℕ}

theorem FileWrite.refl (ht : fs.Linked N d)
    (hcs : fs.Chain N d c cs) (hdone : size ≤ written) :
    FileWrite fs N c offset size written buffer d d cs [] := by
  refine ⟨.refl ht hcs, .refl d, fun _ h => absurd h (not_lt.mpr hdone), fun _ p _ => ?_⟩
  rw [if_neg (by omega)]

theorem FileWrite.cons (hg : FatGeometry fs N) (hlt : written < size)
    (hw : toWrite = min (512 - (offset + written) % 2 ^ 32 % 512) (size - written))
    (h : SectorWrite fs N c ((offset + written) % 2 ^ 32) toWrite (buffer.slice written toWrite)
      d d' cs ks)
    (h' : FileWrite fs N c offset size (written + toWrite) buffer d' d'' (cs ++ ks) es) :
    FileWrite fs N c offset size written buffer d d'' cs (ks ++ es) := by
  have hext := h.extend.trans h'.extend
  have hassoc : cs ++ (ks ++ es) = cs ++ ks ++ es := (append_assoc ..).symm
  refine ⟨hext, ?_, fun hle _ => ?_, fun hle p hp => ?_⟩
  · rw [hassoc]
    refine (h.touches hg).mono (fun l hl => hl.imp_right ?_) |>.trans h'.touches
    rintro ⟨k, hk, hin⟩
    exact ⟨k, mem_append_left _ hk, hin⟩
  · have hmod : (offset + written) % 2 ^ 32 = offset + written := Nat.mod_eq_of_lt (by omega)
    rw [hassoc]
    by_cases hmore : written + toWrite < size
    · exact h'.long hle hmore
    -- the last byte is in the sector that has been written
    have hpos := h.lt_length
    rw [hmod] at hpos hw
    have hsec : (offset + size - 1) / 512 = (offset + written) / 512 := by omega
    have hcl : (offset + size - 1) / fs.clusterSize = (offset + written) / fs.clusterSize := by
      rw [Fat32.clusterSize, Nat.mul_comm, ← Nat.div_div_eq_div_mul, hsec, Nat.div_div_eq_div_mul]
    rw [hcl, length_append]
    omega
  · have hmod : (offset + written) % 2 ^ 32 = offset + written := Nat.mod_eq_of_lt (by omega)
    rw [hmod] at h hw
    have hchain := hext.chain
    rw [hassoc] at hp hchain ⊢
    rw [h'.bytes hle p hp, h.fileByte hg (by omega) hchain.nodup (fun x hx => (hchain.used x hx).1) hp]
    by_cases hnew : offset + (written + toWrite) ≤ p ∧ p < offset + size
    · rw [if_pos hnew, if_pos ⟨by omega, by omega⟩]
    rw [if_neg hnew]
    by_cases hnow : offset + written ≤ p ∧ p < offset + written + toWrite
    · rw [if_pos hnow, if_pos ⟨by omega, by omega⟩, Mem.slice_apply (by omega)]
      congr 1
      omega
    · rw [if_neg hnow, if_neg (by omega)]

theorem writeLoop_fst : ∀ {fuel written : ℕ} {d : FatDisk}, written ≤ size → size - written ≤ fuel →
    (fs.writeLoop f offset size buffer fuel written d).1 = size
  | 0, written, d, hle, hfuel => by
    rw [Fat32.writeLoop]
    omega
  | fuel + 1, written, d, hle, hfuel => by
    rw [Fat32.writeLoop]
    split
    · exact writeLoop_fst (by omega) (by omega)
    · omega

theorem writeLoop_spec (hg : FatGeometry fs N) (hf : f.firstCluster ≠ 0) {B : ℕ}
    (hB : ∀ j < size, (offset + j) % 2 ^ 32 / fs.clusterSize < B) :
    ∀ {fuel written : ℕ} {d : FatDisk} {cs : List ℕ}, size - written ≤ fuel →
      fs.Linked N d →
      fs.Chain N d f.firstCluster cs →
      (B - cs.length ≤ freeCount N (fs.getNextCluster d) ∨
        (fs.writeLoop f offset size buffer fuel written d).2.Found N) →
      ∃ ks, FileWrite fs N f.firstCluster offset size written buffer d
        (fs.writeLoop f offset size buffer fuel written d).2 cs ks
  | 0, written, d, cs, hfuel, ht, hcs, _ => ⟨[], .refl ht hcs (by omega)⟩
  | fuel + 1, written, d, cs, hfuel, ht, hcs, hfree => by
    by_cases hlt : written < size
    · have hstep : fs.writeLoop f offset size buffer (fuel + 1) written d =
          fs.writeLoop f offset size buffer fuel
            (written + min (512 - (offset + written) % 2 ^ 32 % 512) (size - written))
            (fs.writeSector f ((offset + written) % 2 ^ 32)
              (min (512 - (offset + written) % 2 ^ 32 % 512) (size - written))
              (buffer.slice written
                (min (512 - (offset + written) % 2 ^ 32 % 512) (size - written))) d) := by
        rw [Fat32.writeLoop, if_pos hlt]
      rw [hstep] at hfree ⊢
      generalize hw : min (512 - (offset + written) % 2 ^ 32 % 512) (size - written) = toWrite
        at hfree ⊢
      have hBw := hB written hlt
      obtain ⟨ks, hsector⟩ := hg.writeSector_spec ht hcs hf
        (hfree.imp (fun h => by omega) fun h k hk => h k ((fs.grows_writeLoop _ _ _ _ _ _ _).allocated hk))
      have hcount := hsector.extend.free
      obtain ⟨es, hrest⟩ := writeLoop_spec hg hf hB (by omega) hsector.extend.table
        hsector.extend.chain (hfree.imp_left fun h => by rw [length_append]; omega)
      exact ⟨ks ++ es, .cons hg hlt hw.symm hsector hrest⟩
    · rw [Fat32.writeLoop, if_neg hlt]
      exact ⟨[], .refl ht hcs (by omega)⟩

end Loop

/-! ## Reading -/

section Read

variable {d d' : FatDisk} {cs : List ℕ} {i cluster x : ℕ}

theorem iterate_at (hcs : fs.Chain N d c cs) :
    ∀ {n : ℕ}, n < cs.length → cs[n]? = some ((fs.getNextCluster d)^[n] c)
  | 0, hn => by
    cases cs with
    | nil => exact absurd hn (Nat.lt_irrefl 0)
    | cons y ys => rw [hcs.chain.1]; rfl
  | n + 1, hn => by
    have hprev := iterate_at hcs (Nat.lt_of_succ_lt hn)
    rw [Function.iterate_succ_apply', (hcs.next_in hprev hn).1]

theorem clusterBytes_at (hg : FatGeometry fs N)
    (hcs : fs.Chain N d c cs) (hi : cs[i]? = some cluster)
    (hx : x < fs.clusterSize) :
    fs.clusterBytes d cluster x = fs.fileByte d cs (i * fs.clusterSize + x) := by
  obtain ⟨hk2, hkN, -⟩ := hcs.used_at hi
  have hdiv : (i * fs.clusterSize + x) / fs.clusterSize = i := by
    rw [Nat.mul_comm, Nat.mul_add_div hg.clusterSize_pos, Nat.div_eq_of_lt hx, Nat.add_zero]
  have hmod : (i * fs.clusterSize + x) % fs.clusterSize = x := by
    rw [Nat.mul_comm, Nat.mul_add_mod, Nat.mod_eq_of_lt hx]
  have hbyte : (i * fs.clusterSize + x) % 512 = x % 512 := by
    rw [Fat32.clusterSize, ← Nat.mul_assoc, Nat.mul_comm _ 512, Nat.mul_add_mod]
  rw [Fat32.clusterBytes, FatDisk.read, if_pos (show x < fs.sectorsPerCluster * 512 from hx),
    hg.clusterToLba_eq hkN hk2, Fat32.fileByte, Fat32.sectorOf, hdiv, hmod, hbyte,
    getD_eq_getElem?_getD, hi, Option.getD_some]

theorem readLoop_spec (hg : FatGeometry fs N) (hcs : fs.Chain N d c cs) :
    ∀ {fuel i cluster inner rest : ℕ}, cs[i]? = some cluster → inner < fs.clusterSize →
      rest ≤ fuel → i * fs.clusterSize + inner + rest ≤ cs.length * fs.clusterSize →
      fs.readLoop d fuel cluster inner rest =
        (fs.fileByte d cs).bytesAt (i * fs.clusterSize + inner) rest
  | 0, i, cluster, inner, rest, _, _, hfuel, _ => by
    obtain rfl : rest = 0 := by omega
    rfl
  | fuel + 1, i, cluster, inner, rest, hi, hinner, hfuel, hin => by
    rw [Fat32.readLoop]
    by_cases hrest : rest = 0
    · rw [if_pos hrest, hrest]
      rfl
    rw [if_neg hrest]
    have hcopy : ∀ n, inner + n ≤ fs.clusterSize →
        (d.read (fs.clusterToLba cluster) fs.sectorsPerCluster).bytesAt inner n =
          (fs.fileByte d cs).bytesAt (i * fs.clusterSize + inner) n := by
      intro n hn
      refine Mem.bytesAt_congr fun j hj => ?_
      rw [Nat.add_assoc]
      exact hg.clusterBytes_at hcs hi (by omega)
    by_cases hall : rest ≤ fs.clusterSize - inner
    · simp only [Nat.min_eq_right hall, Nat.sub_self, if_true]
      exact hcopy rest (by omega)
    -- the rest is in the next clusters
    have hmin : min (fs.clusterSize - inner) rest = fs.clusterSize - inner := Nat.min_eq_left (by omega)
    have hnext : i + 1 < cs.length := by
      by_contra hge
      have hlen := Nat.mul_le_mul_right fs.clusterSize (show cs.length ≤ i + 1 by omega)
      rw [Nat.add_mul, Nat.one_mul] at hlen
      omega
    obtain ⟨hget, hlt⟩ := hcs.next_in hi hnext
    have hmarks := hg.marks
    have hsum : i * fs.clusterSize + inner + (fs.clusterSize - inner) =
        (i + 1) * fs.clusterSize + 0 := by
      rw [Nat.add_mul, Nat.one_mul]
      omega
    simp only [hmin]
    rw [if_neg (by omega), if_neg (by omega),
      readLoop_spec hg hcs hget hg.clusterSize_pos (by omega) (by omega), hcopy _ (by omega),
      ← hsum, ← Mem.bytesAt_add]
    congr 1
    omega

theorem readFile_spec (hg : FatGeometry fs N)
    (hcs : fs.Chain N d f.firstCluster cs) {size n : ℕ}
    (hsum : offset + size < 2 ^ 32) (hn : n = min size (f.size - offset))
    (hin : n ≠ 0 → offset + n ≤ cs.length * fs.clusterSize) :
    fs.readFile f offset size d = (fs.fileByte d cs).bytesAt offset n := by
  unfold Fat32.readFile
  by_cases hend : f.size ≤ offset
  · obtain rfl : n = 0 := by omega
    rw [if_pos hend]
    rfl
  have hsize : (if f.size < (offset + size) % 2 ^ 32 then f.size - offset else size) = n := by
    split_ifs <;> omega
  rw [if_neg hend]
  simp only [hsize]
  by_cases hzero : n = 0
  · rw [hzero]
    rfl
  have hin := hin hzero
  have hpos : offset / fs.clusterSize < cs.length := Nat.div_lt_of_lt_mul (by rw [Nat.mul_comm]; omega)
  have hsplit : offset / fs.clusterSize * fs.clusterSize + offset % fs.clusterSize = offset := by
    rw [Nat.mul_comm]
    exact Nat.div_add_mod offset fs.clusterSize
  rw [hg.readLoop_spec hcs (iterate_at hcs hpos) (Nat.mod_lt _ hg.clusterSize_pos) le_rfl
    (by rw [hsplit]; exact hin), hsplit]

theorem readLoop_congr (hg : FatGeometry fs N) (hcs : fs.Chain N d c cs)
    (hsame : ∀ k ∈ cs, fs.getNextCluster d' k = fs.getNextCluster d k ∧
      fs.clusterBytes d' k = fs.clusterBytes d k) :
    ∀ {fuel i cluster inner rest : ℕ}, cs[i]? = some cluster →
      fs.readLoop d' fuel cluster inner rest = fs.readLoop d fuel cluster inner rest
  | 0, _, _, _, _, _ => rfl
  | fuel + 1, i, cluster, inner, rest, hi => by
    obtain ⟨hentry, hbytes⟩ := hsame cluster (mem_of_getElem? hi)
    unfold Fat32.clusterBytes at hbytes
    rw [Fat32.readLoop, Fat32.readLoop, hentry, hbytes]
    by_cases hnext : i + 1 < cs.length
    · simp only [readLoop_congr hg hcs hsame (hcs.next_in hi hnext).1]
    · have hend := (hcs.last_at hi (by omega)).1
      simp only [if_pos hend]

theorem clusterBytes_congr (hg : FatGeometry fs N) {k : ℕ} (hk2 : 2 ≤ k) (hk : k < N)
    (h : ∀ l, fs.InCluster k l → d'.sector l = d.sector l) :
    fs.clusterBytes d' k = fs.clusterBytes d k := by
  funext x
  rw [Fat32.clusterBytes, Fat32.clusterBytes, FatDisk.read, FatDisk.read]
  by_cases hx : x < fs.sectorsPerCluster * 512
  · rw [if_pos hx, if_pos hx, hg.clusterToLba_eq hk hk2, h _ ⟨by omega, by omega⟩]
  · rw [if_neg hx, if_neg hx]

theorem readFile_congr (hg : FatGeometry fs N)
    (hcs : fs.Chain N d f.firstCluster cs)
    (hcovers : f.size ≤ cs.length * fs.clusterSize)
    (hsame : ∀ k ∈ cs, fs.getNextCluster d' k = fs.getNextCluster d k ∧
      fs.clusterBytes d' k = fs.clusterBytes d k) (offset size : ℕ) :
    fs.readFile f offset size d' = fs.readFile f offset size d := by
  unfold Fat32.readFile
  by_cases hend : f.size ≤ offset
  · rw [if_pos hend, if_pos hend]
  have hpos : offset / fs.clusterSize < cs.length := Nat.div_lt_of_lt_mul (by rw [Nat.mul_comm]; omega)
  have hcs' : fs.Chain N d' f.firstCluster cs :=
    hcs.congr fun k hk => (hsame k hk).1
  have hstart : (fs.getNextCluster d')^[offset / fs.clusterSize] f.firstCluster =
      (fs.getNextCluster d)^[offset / fs.clusterSize] f.firstCluster :=
    Option.some.inj ((iterate_at hcs' hpos).symm.trans (iterate_at hcs hpos))
  rw [if_neg hend, if_neg hend, hstart]
  exact hg.readLoop_congr hcs hsame (iterate_at hcs hpos)

end Read

end FatGeometry

/-! ## The entry -/

section Entry

variable {fs : Fat32} {f : FatFile} {offset size : ℕ} {buffer : Mem} {d : FatDisk}

theorem touches_updateMetadata : Touches (fun l => l = f.dirEntryLba) d (Fat32.updateMetadata f d) :=
  Touches.write fun _ h1 h2 => by omega

theorem grows_writeFile : (fs.writeLoop f offset size buffer size 0 d).2.Grows
    (fs.writeFile f offset size buffer d).2.2 := by
  unfold Fat32.writeFile
  generalize fs.writeLoop f offset size buffer size 0 d = r
  rcases r with ⟨written, d₁⟩
  split_ifs
  · exact .write d₁
  · exact .refl d₁

theorem touches_writeFile : Touches (fun l => l = f.dirEntryLba)
    (fs.writeLoop f offset size buffer size 0 d).2 (fs.writeFile f offset size buffer d).2.2 := by
  unfold Fat32.writeFile
  generalize fs.writeLoop f offset size buffer size 0 d = r
  rcases r with ⟨written, d₁⟩
  split_ifs
  · exact touches_updateMetadata (f := { f with size := (offset + size) % 2 ^ 32 })
  · exact .refl d₁

end Entry

end KeonOS
