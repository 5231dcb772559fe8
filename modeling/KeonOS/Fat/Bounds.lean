import KeonOS.Fat.Table

/-!
# The clusters that `allocate_cluster` returns

`allocate_cluster` returns the number of the first free entry of the table, whatever the entry is for. The
first two entries belong to no cluster, and the table may have entries behind the one of the last cluster.

* `dataClusters`, **`ValidBpb`**: the sizes of a volume;
* **`allocated_inData_iff`**: the tables for which the cluster is in the data.
-/

namespace KeonOS

namespace Fat32

variable (fs : Fat32)

/-- The number of clusters of a volume of `total` sectors. -/
def dataClusters (total : ℕ) : ℕ :=
  (total - (fs.reservedSectorCount + fs.tableCount * fs.tableSize32)) / fs.sectorsPerCluster

/-- The sizes in the BPB: the table has an entry for each of the clusters. -/
structure ValidBpb (total : ℕ) : Prop where
  cluster : ∃ k < 8, fs.sectorsPerCluster = 2 ^ k
  reserved : 0 < fs.reservedSectorCount
  tables : 0 < fs.tableCount
  data : fs.reservedSectorCount + fs.tableCount * fs.tableSize32 ≤ total
  holds : fs.dataClusters total + 2 ≤ fs.entries
  numbers : fs.entries ≤ 2 ^ 32
  disk : fs.partitionLba + total ≤ 2 ^ 32

def tableEntry (d : FatDisk) (k : ℕ) : ℕ :=
  (d.read ((fs.fatLba + k / 128) % 2 ^ 32) 1).readLE (k % 128 * 4) 4 % 2 ^ 28

/-- Cluster `c` is none of the first two, and its sectors are in the data of the volume. -/
structure InData (total c : ℕ) : Prop where
  number : 2 ≤ c
  exact : fs.clusterToLba c = fs.dataLba + (c - 2) * fs.sectorsPerCluster
  fits : fs.clusterToLba c + fs.sectorsPerCluster ≤ fs.partitionLba + total

variable {fs} {total : ℕ} {d : FatDisk}

theorem allocateCluster_fst : (fs.allocateCluster d).1 =
    (((List.range fs.entries).find? fun k => fs.tableEntry d k = 0).map (· % 2 ^ 32)).getD 0 := by
  unfold allocateCluster tableEntry
  cases List.find? _ _ <;> rfl

theorem allocateCluster_cases (fs : Fat32) (d : FatDisk) :
    (∃ k < fs.entries, fs.tableEntry d k = 0 ∧ (∀ j < k, fs.tableEntry d j ≠ 0) ∧
      (fs.allocateCluster d).1 = k % 2 ^ 32) ∨
    (∀ k < fs.entries, fs.tableEntry d k ≠ 0) ∧ (fs.allocateCluster d).1 = 0 := by
  rw [allocateCluster_fst]
  cases hfind : (List.range fs.entries).find? fun k => fs.tableEntry d k = 0 with
  | none =>
    rw [List.find?_range_eq_none] at hfind
    exact .inr ⟨fun k hk => by simpa using hfind k hk, rfl⟩
  | some k =>
    rw [List.find?_range_eq_some] at hfind
    obtain ⟨hfree, hk, hbefore⟩ := hfind
    exact .inl ⟨k, List.mem_range.mp hk, by simpa using hfree,
      fun j hj => by simpa using hbefore j hj, rfl⟩

theorem inData_iff (hv : fs.ValidBpb total) {c : ℕ} (hc : c < 2 ^ 32) :
    fs.InData total c ↔ 2 ≤ c ∧ c < fs.dataClusters total + 2 := by
  have hspc : 0 < fs.sectorsPerCluster := by
    obtain ⟨k, -, hk⟩ := hv.cluster
    rw [hk]
    exact Nat.two_pow_pos k
  have hdata : fs.dataLba = fs.partitionLba + (fs.reservedSectorCount + fs.tableCount * fs.tableSize32) :=
    Nat.add_assoc ..
  have hfit : ∀ q, q < fs.dataClusters total ↔ fs.dataLba + q * fs.sectorsPerCluster +
      fs.sectorsPerCluster ≤ fs.partitionLba + total := by
    intro q
    rw [dataClusters, Nat.lt_iff_add_one_le, Nat.le_div_iff_mul_le hspc, Nat.succ_mul, hdata]
    omega
  have hdisk := hv.disk
  constructor
  · rintro ⟨h2, hexact, hfits⟩
    rw [hexact, ← hfit] at hfits
    exact ⟨h2, by omega⟩
  rintro ⟨h2, hlt⟩
  have hin := (hfit (c - 2)).mp (by omega)
  have hexact : fs.clusterToLba c = fs.dataLba + (c - 2) * fs.sectorsPerCluster := by
    have hsub : (c + (2 ^ 32 - 2)) % 2 ^ 32 = c - 2 := by omega
    rw [clusterToLba, hsub, Nat.mod_eq_of_lt (by omega)]
  exact ⟨h2, hexact, by rwa [hexact]⟩

/-- **When the cluster is in the data**: entry 0 is free, so that nothing is allocated, or entry 1 is in
use and no entry beyond the clusters is the first free one. -/
theorem allocated_inData_iff (hv : fs.ValidBpb total) (d : FatDisk) :
    ((fs.allocateCluster d).1 ≠ 0 → fs.InData total (fs.allocateCluster d).1) ↔
      fs.tableEntry d 0 = 0 ∨ fs.tableEntry d 1 ≠ 0 ∧
        ((∃ k, 2 ≤ k ∧ k < fs.dataClusters total + 2 ∧ fs.tableEntry d k = 0) ∨
          ∀ k, fs.dataClusters total + 2 ≤ k → k < fs.entries → fs.tableEntry d k ≠ 0) := by
  have hholds := hv.holds
  have hnumbers := hv.numbers
  rcases allocateCluster_cases fs d with ⟨k, hk, hfree, hbefore, heq⟩ | ⟨hnone, heq⟩
  · rw [heq, Nat.mod_eq_of_lt (by omega), inData_iff hv (by omega)]
    constructor
    · intro h
      by_cases hk0 : k = 0
      · exact .inl (hk0 ▸ hfree)
      · obtain ⟨h2, hlt⟩ := h hk0
        exact .inr ⟨hbefore 1 (by omega), .inl ⟨k, h2, hlt, hfree⟩⟩
    · rintro (h0 | ⟨h1, hrest⟩) hne
      · exact absurd h0 (hbefore 0 (by omega))
      have hk1 : k ≠ 1 := fun h => h1 (h ▸ hfree)
      by_contra hge
      rcases hrest with ⟨j, -, hlt, hj⟩ | hslack
      · exact hbefore j (by omega) hj
      · exact hslack k (by omega) hk hfree
  · rw [heq]
    refine iff_of_true (absurd rfl) (.inr ⟨hnone 1 (by omega), .inr fun k _ hk => ?_⟩)
    exact hnone k hk

end Fat32

/-- A volume of 100 clusters, with 26 entries in the table that belong to none. -/
def spareFat : Fat32 := ⟨0, 1, 1, 1, 1, 2⟩

def usedDisk (n : ℕ) : FatDisk := ⟨fun l x => if l = 1 ∧ x < 4 * n then 0xFF else 0, [], []⟩

theorem spareFat_valid : spareFat.ValidBpb 102 := by
  constructor <;> decide

theorem allocated_inData_spare : spareFat.InData 102 (spareFat.allocateCluster (usedDisk 5)).1 := by
  refine (Fat32.allocated_inData_iff spareFat_valid (usedDisk 5)).mpr ?_ ?_
  · exact .inr ⟨by decide +kernel, .inl ⟨5, by decide +kernel⟩⟩
  · decide +kernel

/-- All of the 100 clusters are in use, and entry 102 is returned. -/
theorem allocated_outside : spareFat.ValidBpb 102 ∧ (spareFat.allocateCluster (usedDisk 102)).1 = 102 ∧
      ¬ spareFat.InData 102 (spareFat.allocateCluster (usedDisk 102)).1 := by
  have halloc : (spareFat.allocateCluster (usedDisk 102)).1 = 102 := by decide +kernel
  refine ⟨spareFat_valid, halloc, ?_⟩
  rw [halloc, Fat32.inData_iff spareFat_valid (by norm_num)]
  decide

end KeonOS
