import KeonOS.Fat.Files

/-!
# Writes to FAT32 files

What `FAT32_File::write` does to its file and to the rest of the volume.

* **`fat_write_read`**: the bytes that have been written are read back, and all others are as before;
* `Confined`, **`fat_write_confined`**: when a write stays inside its file.
-/

namespace KeonOS

open FatGeometry List Function

/-- `f` is a file with the clusters `cs`. Its entry is in a cluster that is not one of them. -/
structure FileOn (fs : Fat32) (N : ℕ) (d : FatDisk) (f : FatFile) (cs : List ℕ) : Prop where
  chain : TableChain N endMark (fs.getNextCluster d) f.firstCluster cs
  head : f.firstCluster ≠ 0 → ChainHead N (fs.getNextCluster d) f.firstCluster
  covers : f.size ≤ cs.length * fs.clusterSize
  size : f.size < 2 ^ 32
  entry : ∃ k, 2 ≤ k ∧ k < N ∧ fs.getNextCluster d k ≠ 0 ∧ k ∉ cs ∧ fs.InCluster k f.dirEntryLba

def Fat32.missing (fs : Fat32) (cs : List ℕ) (offset size : ℕ) : ℕ :=
  if size = 0 then 0 else (offset + size - 1) / fs.clusterSize + 1 - cs.length

structure FileWritten (fs : Fat32) (N : ℕ) (d : FatDisk) (f : FatFile) (cs ks : List ℕ)
    (offset size : ℕ) (buffer : Mem) (r : ℕ × FatFile × FatDisk) : Prop where
  count : r.1 = size
  file : r.2.1 = { f with size := max f.size (offset + size) }
  extend : TableExtend N endMark (fs.getNextCluster d) (fs.getNextCluster r.2.2) f.firstCluster cs ks
  touches : Touches (fun l => (fs.InFat l ∨ ∃ k ∈ cs ++ ks, fs.InCluster k l) ∨ l = f.dirEntryLba)
    d r.2.2
  long : size ≠ 0 → (offset + size - 1) / fs.clusterSize < (cs ++ ks).length
  bytes : ∀ p, p / fs.clusterSize < (cs ++ ks).length → fs.fileByte r.2.2 (cs ++ ks) p =
      if offset ≤ p ∧ p < offset + size then buffer (p - offset) else fs.fileByte d (cs ++ ks) p

variable {d' : FatDisk} {ks : List ℕ} {r : ℕ × FatFile × FatDisk}

section Write

variable {fs : Fat32} {N offset size : ℕ} {d : FatDisk} {f : FatFile} {cs : List ℕ} {buffer : Mem}

theorem FileOn.entry_notMem (hf : FileOn fs N d f cs)
    (h : TableExtend N endMark (fs.getNextCluster d) (fs.getNextCluster d') f.firstCluster cs ks) :
    ∀ k ∈ cs ++ ks, ¬ fs.InCluster k f.dirEntryLba := by
  intro k hk hin
  obtain ⟨e, he2, -, hused, hcs, hentry⟩ := hf.entry
  obtain rfl := FatGeometry.inCluster_unique hentry hin he2 (h.chain.used k hk).1
  rcases mem_append.mp hk with hk | hk
  · exact hcs hk
  · exact hused (h.fresh e hk)

theorem FileOn.metadata (hg : FatGeometry fs N) (hf : FileOn fs N d f cs) {d₁ d₂ : FatDisk}
    (h : FileWrite fs N f.firstCluster offset size 0 buffer d d₁ cs ks)
    (hsum : offset + size ≤ 2 ^ 32) (htouch : Touches (fun l => l = f.dirEntryLba) d₁ d₂) :
    FileWritten fs N d f cs ks offset size buffer
      (size, { f with size := max f.size (offset + size) }, d₂) := by
  have hentry := hf.entry_notMem h.extend
  obtain ⟨e, -, -, -, -, hin⟩ := hf.entry
  refine ⟨rfl, rfl, h.extend.congr hg.reserved fun j hj => ?_, ?_, fun h0 => ?_, fun p hp => ?_⟩
  · refine hg.getNextCluster_congr (fun l hl => htouch.sector l fun heq => ?_)
      (lt_of_lt_of_le hj hg.clusters)
    exact hg.not_inFat hin (heq ▸ hl)
  · exact (h.touches.mono fun l hl => .inl hl).trans (htouch.mono fun l hl => .inr hl)
  · exact h.long hsum (Nat.pos_of_ne_zero h0)
  · have hplace := hg.sectorOf_mem (getElem?_eq_getElem hp)
    have hne : fs.sectorOf (cs ++ ks) p ≠ f.dirEntryLba := fun heq =>
      hentry _ (getElem_mem hp) (heq ▸ hplace)
    have hbyte : fs.fileByte d₂ (cs ++ ks) p = fs.fileByte d₁ (cs ++ ks) p := by
      rw [Fat32.fileByte, Fat32.fileByte, htouch.sector _ hne]
    rw [hbyte, h.bytes hsum p hp, Nat.add_zero]

theorem writeFile_spec (hg : FatGeometry fs N) (ht : fs.Linked N d)
    (hf : FileOn fs N d f cs) (hfirst : f.firstCluster ≠ 0) (hsum : offset + size < 2 ^ 32)
    (hfree : fs.missing cs offset size ≤ freeCount N (fs.getNextCluster d)) :
    ∃ ks, FileWritten fs N d f cs ks offset size buffer (fs.writeFile f offset size buffer d) := by
  have hB : ∀ j < size, (offset + j) % 2 ^ 32 / fs.clusterSize <
      if size = 0 then 0 else (offset + size - 1) / fs.clusterSize + 1 := by
    intro j hj
    rw [if_neg (by omega), Nat.mod_eq_of_lt (by omega)]
    exact Nat.lt_succ_of_le (Nat.div_le_div_right (by omega))
  have hneed : (if size = 0 then 0 else (offset + size - 1) / fs.clusterSize + 1) - cs.length ≤
      freeCount N (fs.getNextCluster d) := by
    refine le_trans (le_of_eq ?_) hfree
    rw [Fat32.missing]
    split_ifs
    · rw [Nat.zero_sub]
    · rfl
  have hloop : ∃ ks, FileWrite fs N f.firstCluster offset size 0 buffer d
      (fs.writeLoop f offset size buffer size 0 d).2 cs ks :=
    hg.writeLoop_spec hfirst hB (by omega) ht hf.chain (.inl hneed)
  have hcount : (fs.writeLoop f offset size buffer size 0 d).1 = size :=
    writeLoop_fst (Nat.zero_le size) (by omega)
  rw [Fat32.writeFile]
  generalize fs.writeLoop f offset size buffer size 0 d = res at hloop hcount ⊢
  rcases res with ⟨written, d₁⟩
  obtain rfl : written = size := hcount
  obtain ⟨ks, hloop⟩ := hloop
  refine ⟨ks, ?_⟩
  simp only [Nat.mod_eq_of_lt hsum]
  by_cases hgrow : f.size < offset + written
  · rw [if_pos hgrow]
    have hsize : max f.size (offset + written) = offset + written := Nat.max_eq_right hgrow.le
    have hmeta := hf.metadata hg hloop hsum.le
      (touches_updateMetadata (f := { f with size := offset + written }))
    rwa [hsize] at hmeta
  · rw [if_neg hgrow]
    have hsize : max f.size (offset + written) = f.size := Nat.max_eq_left (not_lt.mp hgrow)
    have hmeta := hf.metadata hg hloop hsum.le (.refl d₁)
    rwa [hsize] at hmeta

theorem FileWritten.other (hg : FatGeometry fs N) (ht : fs.Linked N d)
    (hf : FileOn fs N d f cs) (hfirst : f.firstCluster ≠ 0)
    (h : FileWritten fs N d f cs ks offset size buffer r) {c : ℕ}
    {gs : List ℕ} (hgs : fs.Chain N d c gs)
    (hhead : c ≠ 0 → ChainHead N (fs.getNextCluster d) c) (hne : c ≠ f.firstCluster)
    (hentry : ∀ k ∈ gs, ¬ fs.InCluster k f.dirEntryLba) :
    ∀ k ∈ gs, fs.getNextCluster r.2.2 k = fs.getNextCluster d k ∧
      fs.clusterBytes r.2.2 k = fs.clusterBytes d k := by
  intro k hk
  obtain ⟨hk2, hkN, hused⟩ := hgs.used k hk
  have hc : c ∉ cs := by
    by_cases hc : c = 0
    · exact fun hmem => hf.chain.chain.ne_null c hmem hc
    · exact hf.chain.head_notMem (hhead hc) hne
  have hkcs := ht.disjoint hg.marks hf.chain (hf.head hfirst) hgs hc k hk
  have hkks : k ∉ ks := fun hmem => hused (h.extend.fresh k hmem)
  refine ⟨h.extend.frame k hkN hkcs hkks, hg.clusterBytes_congr hk2 hkN fun l hl => ?_⟩
  refine h.touches.sector l ?_
  rintro ((hin | ⟨j, hj, hin⟩) | heq)
  · exact hg.not_inFat hl hin
  · obtain rfl := inCluster_unique hl hin hk2 (h.extend.chain.used j hj).1
    exact (mem_append.mp hj).elim hkcs hkks
  · exact hentry k hk (heq ▸ hl)

end Write

/-! ## A small volume -/

/-- Two tables of two sectors, and clusters of one sector. -/
def smallFat : Fat32 := ⟨0, 0, 2, 2, 1, 3⟩

/-- The clusters 2 and 3 are in use, one of them by a file and the other one by its directory. -/
def smallDisk : FatDisk := ⟨fun l x => if l = 0 ∧ x < 16 then 0xFF else 0, [], []⟩

def smallFile : FatFile := ⟨2, 0, 5, 0⟩

theorem smallFat_geometry : FatGeometry smallFat 256 := by
  constructor <;> decide

theorem smallDisk_table : ∀ k < 256,
    smallFat.getNextCluster smallDisk k = if k < 4 then takenMark else 0 := by
  decide +kernel

theorem smallDisk_links : LinkTable 256 endMark (smallFat.getNextCluster smallDisk) := by
  refine .of_ends (by decide) ⟨?_, ?_⟩ fun k _ hk => ?_
  · rw [smallDisk_table 0 (by decide)]
    decide
  · rw [smallDisk_table 1 (by decide)]
    decide
  · rw [smallDisk_table k hk]
    split_ifs
    · exact .inr (by decide)
    · exact .inl rfl

theorem smallDisk_free : 0 < freeCount 256 (smallFat.getNextCluster smallDisk) := by
  refine Finset.card_pos.mpr ⟨4, ?_⟩
  rw [Finset.mem_filter, smallDisk_table 4 (by decide)]
  decide

theorem smallDisk_entry {cs : List ℕ} (h : 3 ∉ cs) : ∃ k, 2 ≤ k ∧ k < 256 ∧
    smallFat.getNextCluster smallDisk k ≠ 0 ∧ k ∉ cs ∧ smallFat.InCluster k 5 := by
  refine ⟨3, by decide, by decide, ?_, h, by decide⟩
  rw [smallDisk_table 3 (by decide)]
  decide

theorem smallFile_on : FileOn smallFat 256 smallDisk smallFile [2] := by
  have htwo := smallDisk_table 2 (by decide)
  refine ⟨.singleton (by decide) (by decide) ?_ (by decide), fun _ j hj2 hj => ?_, by decide, by decide,
    smallDisk_entry (by decide)⟩
  · change endMark ≤ smallFat.getNextCluster smallDisk 2
    rw [htwo]
    decide
  · rw [smallDisk_table j hj]
    split_ifs <;> decide

/-! ## Reading back -/

/-- **Write and read.** The written bytes are read back, and all others as before. -/
theorem fat_write_read {fs : Fat32} {N : ℕ} (hg : FatGeometry fs N) {d : FatDisk}
    (ht : LinkTable N endMark (fs.getNextCluster d)) {f : FatFile} {cs : List ℕ}
    (hf : FileOn fs N d f cs) (hfirst : 2 ≤ f.firstCluster) {offset size : ℕ}
    (hsum : offset + size < 2 ^ 32) (buffer : Mem)
    (hfree : fs.missing cs offset size ≤ freeCount N (fs.getNextCluster d)) :
    let r := fs.writeFile f offset size buffer d
    r.1 = size ∧ r.2.1.size = max f.size (offset + size) ∧
      fs.readFile r.2.1 offset size r.2.2 = buffer.bytesAt 0 size ∧
      (∀ p < f.size, p < offset ∨ offset + size ≤ p →
        fs.readFile r.2.1 p 1 r.2.2 = fs.readFile f p 1 d) ∧
      ∀ g gs, FileOn fs N d g gs → g.firstCluster ≠ f.firstCluster →
        (∀ k ∈ gs, ¬ fs.InCluster k f.dirEntryLba) →
        ∀ o s, fs.readFile g o s r.2.2 = fs.readFile g o s d := by
  intro r
  obtain ⟨ks, h⟩ : ∃ ks, FileWritten fs N d f cs ks offset size buffer r :=
    writeFile_spec hg ht hf (by omega) hsum hfree
  have hpos := hg.clusterSize_pos
  have hfile := h.file
  have hchain : TableChain N endMark (fs.getNextCluster r.2.2) r.2.1.firstCluster (cs ++ ks) := by
    rw [hfile]
    exact h.extend.chain
  refine ⟨h.count, by rw [hfile], ?_, fun p hp hout => ?_, fun g gs hgon hne hentry o s => ?_⟩
  · have hn : size = min size (r.2.1.size - offset) := by
      rw [hfile]
      simp only
      omega
    rw [hg.readFile_spec hchain hsum hn fun h0 => ?_]
    · refine Mem.bytesAt_congr fun i hi => ?_
      rw [h.bytes _ (lt_of_le_of_lt (Nat.div_le_div_right (by omega)) (h.long (by omega))),
        if_pos ⟨by omega, by omega⟩, Nat.zero_add, Nat.add_sub_cancel_left]
    · have hlong := (Nat.div_lt_iff_lt_mul hpos).mp (h.long h0)
      omega
  · have hpcs : p / fs.clusterSize < cs.length :=
      (Nat.div_lt_iff_lt_mul hpos).mpr (lt_of_lt_of_le hp hf.covers)
    have hlen : p / fs.clusterSize < (cs ++ ks).length := by
      rw [length_append]
      omega
    have hsize := hf.size
    have hn : 1 = min 1 (r.2.1.size - p) := by
      rw [hfile]
      simp only
      omega
    rw [hg.readFile_spec hchain (by omega) hn fun _ => ?_,
      hg.readFile_spec hf.chain (n := 1) (by omega) (by omega) fun _ => ?_]
    · refine Mem.bytesAt_congr fun i hi => ?_
      obtain rfl : i = 0 := by omega
      rw [Nat.add_zero, h.bytes p hlen, if_neg (by omega), fileByte_append hpcs]
    · have := hf.covers
      omega
    · have := (Nat.div_lt_iff_lt_mul hpos).mp hlen
      omega
  · exact hg.readFile_congr hgon.chain hgon.covers
      (h.other hg ht hf (by omega) hgon.chain hgon.head hne hentry) o s

/-- Byte 600 of an empty file: its chain gets a second cluster. -/
theorem fat_write_read_small :
    smallFat.readFile (smallFat.writeFile smallFile 600 1 (fun _ => 7) smallDisk).2.1 600 1
      (smallFat.writeFile smallFile 600 1 (fun _ => 7) smallDisk).2.2 = [7] := by
  exact (fat_write_read smallFat_geometry smallDisk_links smallFile_on (by decide) (by decide)
    (fun _ => 7) (le_trans (by decide) smallDisk_free)).2.2.1

/-! ## Confinement -/

/-- A write stays in the clusters of the file, the first table and the entry, and changes no other chain;
when the free clusters do not suffice, it returns a short count and leaves the table. -/
structure Confined (fs : Fat32) (N : ℕ) (d : FatDisk) (f : FatFile) (cs : List ℕ) (offset size : ℕ)
    (r : ℕ × FatFile × FatDisk) : Prop where
  sectors : Touches (fun l =>
    (∃ own, TableChain N endMark (fs.getNextCluster r.2.2) f.firstCluster own ∧
      ∃ k ∈ own, fs.InCluster k l) ∨ fs.InFat l ∨ l = f.dirEntryLba) d r.2.2
  chains : ∀ c gs, TableChain N endMark (fs.getNextCluster d) c gs → c ≠ 0 →
    ChainHead N (fs.getNextCluster d) c → c ≠ f.firstCluster →
    TableChain N endMark (fs.getNextCluster r.2.2) c gs
  short : freeCount N (fs.getNextCluster d) < fs.missing cs offset size →
    r.1 < size ∧ ∀ k < fs.entries, fs.getNextCluster r.2.2 k = fs.getNextCluster d k

section Confine

variable {fs : Fat32} {N offset size : ℕ} {d : FatDisk} {f : FatFile} {cs : List ℕ} {buffer : Mem}

theorem Confined.of_entry (hg : FatGeometry fs N) (hf : FileOn fs N d f cs) {written : ℕ}
    {f' : FatFile} (h : Touches (fun l => l = f.dirEntryLba) d d')
    (henough : fs.missing cs offset size ≤ freeCount N (fs.getNextCluster d)) :
    Confined fs N d f cs offset size (written, f', d') := by
  obtain ⟨e, -, -, -, -, hin⟩ := hf.entry
  have htable : ∀ k < fs.entries, fs.getNextCluster d' k = fs.getNextCluster d k := by
    refine fun k hk => hg.getNextCluster_congr (fun l hl => h.sector l ?_) hk
    rintro rfl
    exact hg.not_inFat hin hl
  refine ⟨h.mono fun l hl => .inr (.inr hl), fun c gs hgs _ _ _ => hgs.congr fun x hx => ?_,
    fun hlt => absurd hlt (not_lt.mpr henough)⟩
  exact htable x (lt_of_lt_of_le (hgs.used x hx).2.1 hg.clusters)

theorem Confined.of_written (hg : FatGeometry fs N) (ht : fs.Linked N d)
    (hf : FileOn fs N d f cs) (hfirst : f.firstCluster ≠ 0)
    (h : FileWritten fs N d f cs ks offset size buffer r)
    (henough : fs.missing cs offset size ≤ freeCount N (fs.getNextCluster d)) :
    Confined fs N d f cs offset size r := by
  refine ⟨h.touches.mono fun l hl => ?_, fun c gs hgs _ hhead hne => ?_,
    fun hlt => absurd hlt (not_lt.mpr henough)⟩
  · rcases hl with (hl | hl) | hl
    · exact .inr (.inl hl)
    · exact .inl ⟨cs ++ ks, h.extend.chain, hl⟩
    · exact .inr (.inr hl)
  · exact h.extend.other ht hg.marks hf.chain (hf.head hfirst) hgs (hf.chain.head_notMem hhead hne)

/-- Where a walk from cluster 0 can get to: cluster 0 itself and the clusters that were free. -/
def Stray (fs : Fat32) (N : ℕ) (d : FatDisk) (k : ℕ) : Prop :=
  k = 0 ∨ 2 ≤ k ∧ k < N ∧ fs.getNextCluster d k = 0

theorem writeWalk_stray (hg : FatGeometry fs N) {d₀ : FatDisk} :
    ∀ {n cluster : ℕ} {d : FatDisk}, endMark ≤ fs.getNextCluster d cluster → Stray fs N d₀ cluster →
      fs.getNextCluster d 0 ≠ 0 ∧ fs.getNextCluster d 1 ≠ 0 →
      (∀ x < N, fs.getNextCluster d x = 0 → fs.getNextCluster d₀ x = 0) →
      n ≤ freeCount N (fs.getNextCluster d) → Stray fs N d₀ (fs.writeWalk n cluster d).1
  | 0, _, _, _, hstray, _, _, _ => hstray
  | n + 1, cluster, d, hend, hstray, hres, hold, hfree => by
    have hclusters := hg.clusters
    have hreserved := hg.reserved
    have hmark : 0 < endMark := by decide
    have hcluster : cluster < fs.entries := by
      rcases hstray with rfl | h <;> omega
    obtain ⟨k, hk2, hk, hk0, halloc⟩ := hg.allocateCluster_taken hres (.inl (by omega))
    have hne : k ≠ cluster := by
      rintro rfl
      omega
    rw [fs.writeWalk_last hend, halloc]
    have htable : ∀ x < fs.entries,
        fs.getNextCluster (fs.setNextCluster ((fs.setEntry d k takenMark).took k) cluster k) x =
          if x = cluster then k % 2 ^ 28 else
            if x = k then takenMark else fs.getNextCluster d x := by
      intro x hx
      rw [Fat32.setNextCluster, hg.getNextCluster_setEntry hcluster hx, Fat32.getNextCluster_took,
        hg.getNextCluster_setEntry (by omega) hx, Nat.mod_mod]
      rfl
    have hmod : k % 2 ^ 28 = k := by
      have := hg.entries
      exact Nat.mod_eq_of_lt (by omega)
    have hzero : ∀ x < fs.entries,
        fs.getNextCluster (fs.setNextCluster ((fs.setEntry d k takenMark).took k) cluster k) x = 0 ↔
          Function.update (fs.getNextCluster d) k takenMark x = 0 := by
      intro x hx
      rw [htable x hx]
      by_cases hxc : x = cluster
      · rw [if_pos hxc, hxc, update_of_ne (Ne.symm hne)]
        omega
      · rw [if_neg hxc, update_apply]
    refine writeWalk_stray hg ?_ (.inr ⟨hk2, hk, hold k hk hk0⟩) ⟨?_, ?_⟩ (fun x hx hx0 => ?_) ?_
    · rw [htable k (by omega), if_neg hne, if_pos rfl]
      decide
    · rw [ne_eq, hzero 0 (by omega), update_of_ne (by omega)]
      exact hres.1
    · rw [ne_eq, hzero 1 (by omega), update_of_ne (by omega)]
      exact hres.2
    · rw [hzero x (by omega)] at hx0
      by_cases hxk : x = k
      · rw [hxk]
        exact hold k hk hk0
      · rw [update_of_ne hxk] at hx0
        exact hold x hx hx0
    · have hcount := freeCount_alloc hk hk0 (show takenMark ≠ 0 by decide)
      rw [freeCount_congr fun x hx => hzero x (by omega)]
      omega

theorem stray_sector (hg : FatGeometry fs N) (hf : FileOn fs N d f cs)
    (htables : fs.fatLba + fs.tableSize32 + 2 * fs.sectorsPerCluster ≤ fs.dataLba) {cluster j : ℕ}
    (hstray : Stray fs N d cluster) (hj : j < fs.sectorsPerCluster) :
    ¬ fs.InFat ((fs.clusterToLba cluster + j) % 2 ^ 32) ∧
      (fs.clusterToLba cluster + j) % 2 ^ 32 ≠ f.dirEntryLba := by
  obtain ⟨e, he2, heN, hused, -, hin⟩ := hf.entry
  rcases hstray with rfl | ⟨hk2, hkN, hfree⟩
  · -- the two clusters before the data are in the last table
    have hfits := hg.cluster_fits heN he2
    have hlba : fs.clusterToLba 0 = fs.dataLba - 2 * fs.sectorsPerCluster := by
      have hsum : fs.dataLba + (0 + (2 ^ 32 - 2)) % 2 ^ 32 * fs.sectorsPerCluster =
          fs.dataLba - 2 * fs.sectorsPerCluster + fs.sectorsPerCluster * 2 ^ 32 := by
        omega
      rw [Fat32.clusterToLba, hsum, Nat.add_mul_mod_self_right, Nat.mod_eq_of_lt (by omega)]
    refine ⟨fun hfat => ?_, fun heq => ?_⟩
    · have := hfat.2
      omega
    · have := hin.1
      omega
  · have hfits := hg.cluster_fits hkN hk2
    rw [hg.clusterToLba_eq hkN hk2, Nat.mod_eq_of_lt (by omega)]
    have hplace : fs.InCluster cluster
        (fs.dataLba + (cluster - 2) * fs.sectorsPerCluster + j) := ⟨by omega, by omega⟩
    refine ⟨hg.not_inFat hplace, fun heq => ?_⟩
    obtain rfl := inCluster_unique hplace (heq ▸ hin) hk2 he2
    exact hused hfree

theorem writeFile_fst : (fs.writeFile f offset size buffer d).1 = size := by
  have hcount : (fs.writeLoop f offset size buffer size 0 d).1 = size :=
    writeLoop_fst (Nat.zero_le size) (by omega)
  unfold Fat32.writeFile
  split_ifs <;> exact hcount

theorem first_sector_written (hsize : size ≠ 0) (hoffset : offset < 2 ^ 32) :
    (fs.clusterToLba (fs.writeWalk (offset / fs.clusterSize) f.firstCluster d).1 +
      offset % fs.clusterSize / 512) % 2 ^ 32 ∈ (fs.writeFile f offset size buffer d).2.2.written := by
  refine grows_writeFile.written ?_
  obtain ⟨m, rfl⟩ := Nat.exists_eq_succ_of_ne_zero hsize
  rw [Fat32.writeLoop, if_pos (Nat.succ_pos m)]
  refine (fs.grows_writeLoop _ _ _ _ _ _ _).written ?_
  rw [Nat.add_zero, Nat.mod_eq_of_lt hoffset]
  rcases hwalk : fs.writeWalk (offset / fs.clusterSize) f.firstCluster d with ⟨cluster, d'⟩
  rw [fs.writeSector_eq hwalk rfl, FatDisk.written_write]
  exact mem_append_left _ (by simp)

theorem not_confined_of_zero (hg : FatGeometry fs N) (hf : FileOn fs N d f cs)
    (hwritten : d.written = [])
    (hres : endMark ≤ fs.getNextCluster d 0 ∧ fs.getNextCluster d 1 ≠ 0)
    (htables : fs.fatLba + fs.tableSize32 + 2 * fs.sectorsPerCluster ≤ fs.dataLba)
    (hfirst : f.firstCluster = 0) (hsize : size ≠ 0) (hsum : offset + size < 2 ^ 32)
    (henough : fs.missing cs offset size ≤ freeCount N (fs.getNextCluster d)) :
    ¬ Confined fs N d f cs offset size (fs.writeFile f offset size buffer d) := by
  intro h
  have hcs : cs = [] := (hfirst ▸ hf.chain.chain).unique rfl
  have hmark : 0 < endMark := by decide
  rw [Fat32.missing, if_neg hsize, hcs, length_nil] at henough
  have hwalk := writeWalk_stray (n := offset / fs.clusterSize) hg hres.1 (.inl rfl)
    ⟨by omega, hres.2⟩ (fun x _ hx => hx)
    (le_trans (Nat.div_le_div_right (show offset ≤ offset + size - 1 by omega)) (by omega))
  have hj : offset % fs.clusterSize / 512 < fs.sectorsPerCluster :=
    Nat.div_lt_of_lt_mul (by rw [Nat.mul_comm]; exact Nat.mod_lt _ hg.clusterSize_pos)
  obtain ⟨hfat, hentry⟩ := stray_sector hg hf htables hwalk hj
  have hmem : _ ∈ (fs.writeFile f offset size buffer d).2.2.written :=
    first_sector_written hsize (by omega)
  rw [hfirst] at hmem
  rcases h.sectors.written _ hmem with hl | ⟨own, hown, k, hk, -⟩ | hl | hl
  · rw [hwritten] at hl
    exact not_mem_nil hl
  · rw [hfirst] at hown
    obtain rfl : own = [] := hown.chain.unique (show Chain 0 _ 0 [] from rfl)
    exact not_mem_nil hk
  · exact hfat hl
  · exact hentry hl

/-- **Confinement of writes.** A write of some bytes is confined exactly if the file has a first cluster
and the free clusters suffice, on a disk with two tables whose first entry is an end mark. -/
theorem fat_write_confined (hg : FatGeometry fs N) (ht : LinkTable N endMark (fs.getNextCluster d))
    (hf : FileOn fs N d f cs) (hsum : offset + size < 2 ^ 32) (buffer : Mem) :
    ((size = 0 ∨ f.firstCluster ≠ 0 ∧ fs.missing cs offset size ≤ freeCount N (fs.getNextCluster d)) →
      Confined fs N d.fresh f cs offset size (fs.writeFile f offset size buffer d.fresh)) ∧
    (fs.fatLba + fs.tableSize32 + 2 * fs.sectorsPerCluster ≤ fs.dataLba →
      endMark ≤ fs.getNextCluster d 0 →
      Confined fs N d.fresh f cs offset size (fs.writeFile f offset size buffer d.fresh) →
      size = 0 ∨ f.firstCluster ≠ 0 ∧
        fs.missing cs offset size ≤ freeCount N (fs.getNextCluster d)) := by
  have hfat := fs.getNextCluster_fresh d
  have hf' : FileOn fs N d.fresh f cs := by
    refine ⟨?_, ?_, hf.covers, hf.size, ?_⟩ <;> rw [hfat]
    exacts [hf.chain, hf.head, hf.entry]
  rw [← hfat] at ht ⊢
  refine ⟨?_, fun htables hend h => ?_⟩
  · rintro (rfl | ⟨hfirst, henough⟩)
    · -- no byte: at most the size changes
      have hnone : fs.missing cs offset 0 ≤ freeCount N (fs.getNextCluster d.fresh) := Nat.zero_le _
      simp only [Fat32.writeFile, Fat32.writeLoop]
      split_ifs
      · exact .of_entry hg hf'
          (touches_updateMetadata (f := { f with size := (offset + 0) % 2 ^ 32 })) hnone
      · exact .of_entry hg hf' (.refl _) hnone
    · obtain ⟨ks, h⟩ := writeFile_spec hg ht hf' hfirst hsum henough
      exact .of_written hg ht hf' hfirst h henough
  · by_cases hsize : size = 0
    · exact .inl hsize
    have henough : fs.missing cs offset size ≤ freeCount N (fs.getNextCluster d.fresh) := by
      by_contra hlt
      have hshort := (h.short (by omega)).1
      rw [writeFile_fst] at hshort
      exact lt_irrefl _ hshort
    refine .inr ⟨fun hzero => ?_, henough⟩
    exact not_confined_of_zero hg hf' rfl ⟨hend, ht.reserved.2⟩ htables hzero hsize hsum henough h

end Confine

theorem fat_write_confined_small : Confined smallFat 256 smallDisk.fresh smallFile [2] 0 1
      (smallFat.writeFile smallFile 0 1 (fun _ => 7) smallDisk.fresh) :=
  (fat_write_confined smallFat_geometry smallDisk_links smallFile_on (by decide) fun _ => 7).1
    (.inr ⟨by decide, by decide⟩)

/-- An empty file without a first cluster, in the same directory. -/
def emptyFile : FatFile := ⟨0, 0, 5, 0⟩

/-- **A write that is not confined.** The first byte of a file without a first cluster is written to
the second table. -/
theorem fat_write_unconfined : LinkTable 256 endMark (smallFat.getNextCluster smallDisk) ∧
      FileOn smallFat 256 smallDisk emptyFile [] ∧
      2 ∈ (smallFat.writeFile emptyFile 0 1 (fun _ => 7) smallDisk).2.2.written ∧
      ¬ Confined smallFat 256 smallDisk emptyFile [] 0 1
        (smallFat.writeFile emptyFile 0 1 (fun _ => 7) smallDisk) := by
  have hfile : FileOn smallFat 256 smallDisk emptyFile [] :=
    ⟨⟨rfl, by simp⟩, fun h => absurd rfl h, by decide, by decide, smallDisk_entry (by decide)⟩
  refine ⟨smallDisk_links, hfile, by decide +kernel, ?_⟩
  refine not_confined_of_zero smallFat_geometry hfile rfl ⟨?_, smallDisk_links.reserved.2⟩
    (by decide) rfl (by decide) (by decide) (le_trans (by decide) smallDisk_free)
  rw [smallDisk_table 0 (by decide)]
  decide

end KeonOS
