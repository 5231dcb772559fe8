import KeonOS.Ext4.Slots

/-!
# The numbers of the superblock

`Ext4Manager::init` checks the magic number only. The sizes it takes from the superblock are shift counts
and divisors, there and in every later read of a descriptor or of an inode; two of the divisors are
themselves quotients.

* **`Ext4.superblock_safe_iff`**: the superblocks with which none of them fails.
-/

namespace KeonOS

def udiv (a b : ℕ) : Option ℕ := if b = 0 then none else some (a / b)
def umod (a b : ℕ) : Option ℕ := if b = 0 then none else some (a % b)

def shift1024 (n : ℕ) : Option ℕ := if 22 ≤ n then none else some (1024 * 2 ^ n)

/-- The fields of a superblock, at their offsets. -/
def Ext4Superblock.ofBytes (m : Mem) : Ext4Superblock where
  blocksCountLo := m.readLE 0x04 4
  blocksCountHi := m.readLE 0x150 4
  firstDataBlock := m.readLE 0x14 4
  logBlockSize := m.readLE 0x18 4
  blocksPerGroup := m.readLE 0x20 4
  inodesPerGroup := m.readLE 0x28 4
  magic := m.readLE 0x38 2
  revLevel := m.readLE 0x4C 4
  inodeSize := m.readLE 0x58 2
  featureIncompat := m.readLE 0x60 4
  descSize := m.readLE 0xFE 2

namespace Ext4

/-- `Ext4Manager::init` -/
def initChecked (sb : Ext4Superblock) : Option Ext4 := do
  guard (sb.magic = 0xEF53)
  let blockSize ← shift1024 sb.logBlockSize
  let totalBlocks := sb.blocksCountLo + 2 ^ 32 * sb.blocksCountHi
  let groups ← udiv ((totalBlocks + sb.blocksPerGroup - 1) % 2 ^ 64) sb.blocksPerGroup
  pure {
    blockSize := blockSize
    inodeSize := if 0 < sb.revLevel then sb.inodeSize else 128
    inodesPerGroup := sb.inodesPerGroup
    blocksPerGroup := sb.blocksPerGroup
    groupDescSize := if has64Bit sb then sb.descSize else 32
    groupsCount := groups % 2 ^ 32
    firstDataBlock := sb.firstDataBlock
    is64 := has64Bit sb }

variable (fs : Ext4)

/-- The block and the offset of `read_group_desc(group)` -/
def descSlot (group : ℕ) : Option (ℕ × ℕ) := do
  let descPerBlock ← udiv fs.blockSize fs.groupDescSize
  let blockOffset ← udiv group descPerBlock
  let index ← umod group descPerBlock
  pure (fs.firstDataBlock + 1 + blockOffset, index * fs.groupDescSize)

/-- The arithmetic of `read_inode(inode_num)`: the slots of the descriptor and of the inode. -/
def inodeSlot (ino : ℕ) : Option ((ℕ × ℕ) × ℕ × ℕ) := do
  let group ← udiv ((ino + (2 ^ 32 - 1)) % 2 ^ 32) fs.inodesPerGroup
  let index ← umod ((ino + (2 ^ 32 - 1)) % 2 ^ 32) fs.inodesPerGroup
  let desc ← fs.descSlot group
  let inodesPerBlock ← udiv fs.blockSize fs.inodeSize
  let blockOffset ← udiv index inodesPerBlock
  let i ← umod index inodesPerBlock
  pure (desc, blockOffset, i * fs.inodeSize)

def sectorsPerBlock : Option ℕ := udiv fs.blockSize 512

/-- The numbers are computed, and a block has room for a descriptor and for an inode. -/
structure SuperblockSafe (sb : Ext4Superblock) (fs : Ext4) : Prop where
  init : initChecked sb = some fs
  desc : ∀ group, (fs.descSlot group).isSome
  inode : ∀ ino, (fs.inodeSlot ino).isSome
  block : fs.sectorsPerBlock.isSome
  room : 1 ≤ fs.blockSize / fs.groupDescSize ∧ 1 ≤ fs.blockSize / fs.inodeSize

/-- The sizes in a superblock fit together. -/
structure SaneGeometry (sb : Ext4Superblock) : Prop where
  shift : sb.logBlockSize < 22
  blocks : sb.blocksPerGroup ≠ 0
  inodes : sb.inodesPerGroup ≠ 0
  inode : 0 < sb.revLevel → 0 < sb.inodeSize ∧ sb.inodeSize ≤ 1024 * 2 ^ sb.logBlockSize
  desc : has64Bit sb = true → 0 < sb.descSize ∧ sb.descSize ≤ 1024 * 2 ^ sb.logBlockSize

variable {fs} {sb : Ext4Superblock}

theorem initChecked_eq (hshift : sb.logBlockSize < 22) : initChecked sb = init sb := by
  have hpow : 2 ^ sb.logBlockSize ≤ 2 ^ 21 := Nat.pow_le_pow_right (by norm_num) (by omega)
  have hsize : 1024 * 2 ^ (sb.logBlockSize % 32) % 2 ^ 32 = 1024 * 2 ^ sb.logBlockSize := by
    rw [Nat.mod_eq_of_lt (show sb.logBlockSize < 32 by omega), Nat.mod_eq_of_lt (by omega)]
  rw [initChecked, init, hsize, shift1024, if_neg (not_le.mpr hshift)]
  by_cases hmagic : sb.magic = 0xEF53
  · by_cases hblocks : sb.blocksPerGroup = 0
    · simp [udiv, hmagic, hblocks]
    · simp [udiv, hmagic, hblocks]
  · simp [hmagic]

theorem initChecked_eq_some (h : initChecked sb = some fs) :
    sb.logBlockSize < 22 ∧ sb.blocksPerGroup ≠ 0 ∧ fs.blockSize = 1024 * 2 ^ sb.logBlockSize ∧
      fs.inodesPerGroup = sb.inodesPerGroup ∧
      fs.inodeSize = (if 0 < sb.revLevel then sb.inodeSize else 128) ∧
      fs.groupDescSize = if has64Bit sb then sb.descSize else 32 := by
  simp only [initChecked, Option.bind_eq_bind, Option.bind_eq_some_iff] at h
  obtain ⟨-, -, bs, hbs, groups, hgroups, hfs⟩ := h
  rw [shift1024] at hbs
  rw [udiv] at hgroups
  split_ifs at hbs hgroups with hshift hblocks
  rw [← Option.some.inj hfs, ← Option.some.inj hbs]
  exact ⟨not_le.mp hshift, hblocks, rfl, rfl, rfl, rfl⟩

theorem descSlot_eq (h : 1 ≤ fs.blockSize / fs.groupDescSize) (group : ℕ) :
    fs.descSlot group = some (fs.descBlock group, fs.descOffset group) := by
  have hsize : fs.groupDescSize ≠ 0 := fun h0 => by simp [h0] at h
  have hper : fs.blockSize / fs.groupDescSize ≠ 0 := by omega
  simp [descSlot, udiv, umod, hsize, hper, descBlock, descOffset]

theorem inodeSlot_eq (h : 1 ≤ fs.blockSize / fs.groupDescSize ∧ 1 ≤ fs.blockSize / fs.inodeSize)
    (hper : fs.inodesPerGroup ≠ 0) {ino : ℕ} (h0 : 0 < ino) (hino : ino < 2 ^ 32) :
    fs.inodeSlot ino = some ((fs.descBlock (fs.inodeGroup ino), fs.descOffset (fs.inodeGroup ino)),
      fs.inodeBlock ino, fs.inodeOffset ino) := by
  have hsize : fs.inodeSize ≠ 0 := fun h0 => by simp [h0] at h
  have hdiv : fs.blockSize / fs.inodeSize ≠ 0 := by omega
  have hpred : (ino + (2 ^ 32 - 1)) % 2 ^ 32 = ino - 1 := by omega
  rw [inodeSlot, hpred]
  simp [udiv, umod, hper, hsize, hdiv, descSlot_eq h.1, inodeGroup, inodeBlock, inodeOffset]

theorem one_le_div_iff {a b : ℕ} : 1 ≤ a / b ↔ 0 < b ∧ b ≤ a := by
  rcases Nat.eq_zero_or_pos b with rfl | hb
  · simp
  · rw [Nat.le_div_iff_mul_le hb, Nat.one_mul, and_iff_right hb]

/-- **The superblocks that `init` accepts and that are safe.** -/
theorem superblock_safe_iff (m : Mem) (hmagic : (Ext4Superblock.ofBytes m).magic = 0xEF53) :
    (∃ fs, SuperblockSafe (.ofBytes m) fs) ↔ SaneGeometry (.ofBytes m) := by
  generalize Ext4Superblock.ofBytes m = sb at *
  constructor
  · rintro ⟨fs, hinit, -, hinode, -, hdesc, hroom⟩
    obtain ⟨hshift, hblocks, hbs, hper, hsize, hgds⟩ := initChecked_eq_some hinit
    rw [hgds, hbs, one_le_div_iff] at hdesc
    rw [hsize, hbs, one_le_div_iff] at hroom
    refine ⟨hshift, hblocks, fun h0 => ?_, fun hrev => ?_, fun h64 => ?_⟩
    · -- with no inodes in a group, `get_inode_group` divides by zero
      have hnone : fs.inodeSlot 1 = none := by simp [inodeSlot, udiv, hper, h0]
      have hsome := hinode 1
      rw [hnone] at hsome
      exact absurd hsome (by simp)
    · rwa [if_pos hrev] at hroom
    · rwa [if_pos h64] at hdesc
  rintro ⟨hshift, hblocks, hper, hinode, hdesc⟩
  have hpow : 1024 ≤ 1024 * 2 ^ sb.logBlockSize := Nat.le_mul_of_pos_right _ (by positivity)
  obtain ⟨fs, hinit⟩ : ∃ fs, initChecked sb = some fs := by
    simp [initChecked, shift1024, udiv, hmagic, hblocks, not_le.mpr hshift]
  obtain ⟨-, -, hbs, hper', hsize, hgds⟩ := initChecked_eq_some hinit
  have hroom : 1 ≤ fs.blockSize / fs.groupDescSize ∧ 1 ≤ fs.blockSize / fs.inodeSize := by
    rw [one_le_div_iff, one_le_div_iff, hbs, hsize, hgds]
    constructor
    · split_ifs with h64
      · exact hdesc h64
      · omega
    · split_ifs with hrev
      · exact hinode hrev
      · omega
  have hi : fs.inodeSize ≠ 0 := fun h0 => by simp [h0] at hroom
  refine ⟨fs, hinit, fun group => ?_, fun ino => ?_, by simp [sectorsPerBlock, udiv], hroom⟩
  · rw [descSlot_eq hroom.1]
    rfl
  · simp [inodeSlot, udiv, umod, descSlot_eq hroom.1, hi, hper', hper,
      show fs.blockSize / fs.inodeSize ≠ 0 by omega]

/-- A superblock with the magic number, 16 inodes of `size` bytes and 8192 blocks in a group. -/
def superblockBytes (size : UInt8) : Mem := fun x =>
  if x = 0x38 then 0x53 else if x = 0x39 then 0xEF else if x = 0x21 then 0x20 else if x = 0x28 then 16
  else if x = 0x4C then 1 else if x = 0x58 then size else 0

theorem superblock_safe_128 : ∃ fs, SuperblockSafe (.ofBytes (superblockBytes 128)) fs :=
  (superblock_safe_iff (superblockBytes 128) (by decide)).mpr
    ⟨by decide, by decide, by decide, by decide, by decide⟩

/-- Inodes of zero bytes: `init` returns, and the first `read_inode` divides by zero. -/
theorem superblock_unsafe : (Ext4Superblock.ofBytes (superblockBytes 0)).magic = 0xEF53 ∧
      (initChecked (.ofBytes (superblockBytes 0))).map (·.inodeSlot 2) = some none ∧
      ¬∃ fs, SuperblockSafe (.ofBytes (superblockBytes 0)) fs := by
  refine ⟨by decide, by decide +kernel, ?_⟩
  rintro ⟨fs, h⟩
  obtain ⟨-, -, -, -, hsize, -⟩ := initChecked_eq_some h.init
  have hzero : fs.inodeSize = 0 := hsize.trans (by decide)
  have hroom := h.room.2
  rw [hzero, Nat.div_zero] at hroom
  omega

end Ext4

end KeonOS
