import KeonOS.Lib.Bytes
import KeonOS.Lib.BlockM

/-!
# The ext4 driver

The methods of `Ext4Manager` in `ext4_vfs.cpp`, as programs over the blocks of a volume: group
descriptors, inodes, extents and the two bitmaps. `journal_write_block` logs a block, so that the same
program serves both modes of the driver.

* **`Ext4.extentGetBlock`**, **`Ext4.extentAllocateBlocks`**: the extent tree;
* **`Ext4.allocateBlock`**, `Ext4.allocateInode`, `Ext4.freeBlock`: the allocator.

A structure on the disk is the memory of its bytes, and its fields are read at their offsets. The disk
stores what it is given; the free counts of the superblock in memory, which nothing reads, are left out.
-/

namespace KeonOS

inductive Ext4Event
  | allocBlock (b : ℕ)
  | freeBlock (b : ℕ)
  | allocInode (ino : ℕ)
deriving DecidableEq, Repr

abbrev Ext4M := BlockM ℕ Mem Ext4Event

/-- The volume: its blocks, and what the allocator did. -/
abbrev Ext4Store := Store ℕ Mem Ext4Event

/-- `Ext4Manager`, as far as it is used; `is64` is the feature `EXT4_FEATURE_INCOMPAT_64BIT`. -/
structure Ext4 where
  blockSize : ℕ
  inodeSize : ℕ
  inodesPerGroup : ℕ
  blocksPerGroup : ℕ
  groupDescSize : ℕ
  groupsCount : ℕ
  firstDataBlock : ℕ
  is64 : Bool
deriving Repr

/-- `sizeof(Ext4GroupDesc)` -/
abbrev groupDescBytes : ℕ := 64

/-- `sizeof(Ext4Inode)` -/
abbrev inodeBytes : ℕ := 160

/-! ## Fields -/

/-- The bytes of the group descriptor at `a` that say where the bitmaps and the inode table are. -/
def descLocations (a : ℕ) (m : Mem) : Mem := fun i =>
  if i < 12 ∨ 32 ≤ i ∧ i < 44 then m (a + i) else 0

abbrev bgFreeBlocksCount : ℕ := 12
abbrev bgFreeInodesCount : ℕ := 14
abbrev bgUsedDirsCount : ℕ := 16

/-- `i_mode`, `i_size_lo`, `i_links_count`, `i_flags`, `i_block` and `i_size_high` -/
abbrev iMode : ℕ := 0
abbrev iSizeLo : ℕ := 4
abbrev iLinksCount : ℕ := 26
abbrev iFlags : ℕ := 32
abbrev iBlock : ℕ := 40
abbrev iSizeHigh : ℕ := 108

/-- `inode->i_flags & EXT4_EXTENTS_FL` -/
def usesExtents (inode : Mem) : Bool := inode.readLE iFlags 4 &&& 0x00080000 ≠ 0

abbrev extentMagic : ℕ := 0xF30A

/-- The fields of an extent header at `a`. -/
def ehMagic (m : Mem) (a : ℕ) : ℕ := m.readLE a 2
def ehEntries (m : Mem) (a : ℕ) : ℕ := m.readLE (a + 2) 2
def ehMax (m : Mem) (a : ℕ) : ℕ := m.readLE (a + 4) 2
def ehDepth (m : Mem) (a : ℕ) : ℕ := m.readLE (a + 6) 2

/-- The address of entry `k` after the header at `a`. -/
def entryAt (a k : ℕ) : ℕ := a + 12 + 12 * k

/-- The fields of the extent at `p`. -/
def eeBlock (m : Mem) (p : ℕ) : ℕ := m.readLE p 4
def eeLen (m : Mem) (p : ℕ) : ℕ := m.readLE (p + 4) 2

/-- `ext4_get_extent_start` -/
def eeStart (m : Mem) (p : ℕ) : ℕ := m.readLE (p + 8) 4 + 2 ^ 32 * m.readLE (p + 6) 2

/-- The fields of the index at `p`. -/
def eiBlock (m : Mem) (p : ℕ) : ℕ := m.readLE p 4
def eiLeaf (m : Mem) (p : ℕ) : ℕ := m.readLE (p + 4) 4 + 2 ^ 32 * m.readLE (p + 8) 2

/-! ## Searching -/

def firstBelow (n : ℕ) (p : ℕ → Bool) : Option ℕ := (List.range n).find? p

/-- The block for `logical` in the leaf at `a`. -/
def findExtent (m : Mem) (a logical : ℕ) : Option ℕ := (firstBelow (ehEntries m a) fun k =>
    eeBlock m (entryAt a k) ≤ logical ∧
      logical < (eeBlock m (entryAt a k) + eeLen m (entryAt a k)) % 2 ^ 32).map
    fun k => eeStart m (entryAt a k) + (logical - eeBlock m (entryAt a k))

/-- The next node for `logical` in the index node at `a`. -/
def findIndex (m : Mem) (a logical : ℕ) : Option ℕ := (firstBelow (ehEntries m a) fun k =>
    eiBlock m (entryAt a k) ≤ logical ∧
      logical < if k + 1 < ehEntries m a then eiBlock m (entryAt a (k + 1)) else 0xFFFFFFFF).map
    fun k => eiLeaf m (entryAt a k)

namespace Ext4

variable (fs : Ext4)

def readBlock (b : ℕ) : Ext4M Mem := BlockM.readPart b (·.slice 0 fs.blockSize)

def writeBlock (b : ℕ) (buffer : Mem) : Ext4M Unit := BlockM.writeNow b buffer

def journalWriteBlock (b : ℕ) (buffer : Mem) : Ext4M Unit := BlockM.writeLogged b buffer

/-! ## Group descriptors -/

def descBlock (group : ℕ) : ℕ := fs.firstDataBlock + 1 + group / (fs.blockSize / fs.groupDescSize)

def descOffset (group : ℕ) : ℕ := group % (fs.blockSize / fs.groupDescSize) * fs.groupDescSize

def readGroupDesc (group : ℕ) : Ext4M Mem :=
  BlockM.readPart (fs.descBlock group) (·.slice (fs.descOffset group) groupDescBytes)

/-- `read_group_desc` where only the locations in the descriptor are used. -/
def readLocations (group : ℕ) : Ext4M Mem :=
  BlockM.readPart (fs.descBlock group) (descLocations (fs.descOffset group))

def writeGroupDesc (group : ℕ) (desc : Mem) : Ext4M Unit := do
  let buffer ← fs.readBlock (fs.descBlock group)
  journalWriteBlock (fs.descBlock group) (buffer.copy (fs.descOffset group) groupDescBytes desc)

/-- A location with its low half at `lo` and its high half at `hi`. -/
def location (desc : Mem) (lo hi : ℕ) : ℕ :=
  if fs.is64 then desc.readLE lo 4 + 2 ^ 32 * desc.readLE hi 4 else desc.readLE lo 4

def getBlockBitmap (desc : Mem) : ℕ := fs.location desc 0 32

def getInodeBitmap (desc : Mem) : ℕ := fs.location desc 4 36

def getInodeTable (desc : Mem) : ℕ := fs.location desc 8 40

/-! ## Inodes -/

/-- `get_inode_group` -/
def inodeGroup (ino : ℕ) : ℕ := (ino - 1) / fs.inodesPerGroup

def inodeBlock (ino : ℕ) : ℕ := (ino - 1) % fs.inodesPerGroup / (fs.blockSize / fs.inodeSize)

def inodeOffset (ino : ℕ) : ℕ :=
  (ino - 1) % fs.inodesPerGroup % (fs.blockSize / fs.inodeSize) * fs.inodeSize

def readInode (ino : ℕ) : Ext4M Mem := do
  let gd ← fs.readLocations (fs.inodeGroup ino)
  BlockM.readPart (fs.getInodeTable gd + fs.inodeBlock ino) (·.slice (fs.inodeOffset ino) inodeBytes)

def writeInode (ino : ℕ) (inode : Mem) : Ext4M Unit := do
  let gd ← fs.readLocations (fs.inodeGroup ino)
  let buffer ← fs.readBlock (fs.getInodeTable gd + fs.inodeBlock ino)
  writeBlock (fs.getInodeTable gd + fs.inodeBlock ino)
    (buffer.copy (fs.inodeOffset ino) inodeBytes inode)

/-! ## Looking up an extent -/

/-- The loop of `extent_get_block`, at the node at `a` in `m`. A walk through `fuel` nodes meets one
twice. -/
def extentWalk (logical : ℕ) : ℕ → Mem → ℕ → ℕ → Ext4M ℕ
  | 0, _, _, _ => .stuck
  | fuel + 1, m, a, depth =>
    if depth = 0 then pure ((findExtent m a logical).getD 0)
    else
      match findIndex m a logical with
      | none => pure 0
      | some next => do
        let node ← fs.readBlock next
        if ehMagic node 0 ≠ extentMagic then pure 0
        else extentWalk logical fuel node 0 (ehDepth node 0)

def extentGetBlock (inode : Mem) (logical : ℕ) : Ext4M ℕ :=
  if ¬usesExtents inode then pure 0
  else if ehMagic inode iBlock ≠ extentMagic then pure 0
  else fs.extentWalk logical (2 ^ 64) inode iBlock (ehDepth inode iBlock)

/-! ## The allocator -/

def allocateBlockFrom : ℕ → ℕ → Ext4M ℕ
  | 0, _ => pure 0
  | n + 1, g => do
    let gd ← fs.readGroupDesc g
    if 0 < gd.readLE bgFreeBlocksCount 2 then
      let buffer ← fs.readBlock (fs.getBlockBitmap gd)
      match firstBelow fs.blocksPerGroup fun i => !buffer.bit i with
      | some i =>
        journalWriteBlock (fs.getBlockBitmap gd) (buffer.setBit i true)
        fs.writeGroupDesc g (gd.writeLE bgFreeBlocksCount 2 (gd.readLE bgFreeBlocksCount 2 - 1))
        BlockM.event (.allocBlock (g * fs.blocksPerGroup + i + fs.firstDataBlock))
        pure (g * fs.blocksPerGroup + i + fs.firstDataBlock)
      | none => allocateBlockFrom n (g + 1)
    else allocateBlockFrom n (g + 1)

def allocateBlock : Ext4M ℕ := fs.allocateBlockFrom fs.groupsCount 0

def allocateInodeFrom (isDirectory : Bool) : ℕ → ℕ → Ext4M ℕ
  | 0, _ => pure 0
  | n + 1, g => do
    let gd ← fs.readGroupDesc g
    if 0 < gd.readLE bgFreeInodesCount 2 then
      let buffer ← fs.readBlock (fs.getInodeBitmap gd)
      match firstBelow fs.inodesPerGroup fun i => !buffer.bit i with
      | some i =>
        journalWriteBlock (fs.getInodeBitmap gd) (buffer.setBit i true)
        let gd₁ := gd.writeLE bgFreeInodesCount 2 (gd.readLE bgFreeInodesCount 2 - 1)
        fs.writeGroupDesc g
          (if isDirectory then gd₁.writeLE bgUsedDirsCount 2 (gd.readLE bgUsedDirsCount 2 + 1)
           else gd₁)
        BlockM.event (.allocInode (g * fs.inodesPerGroup + i + 1))
        pure (g * fs.inodesPerGroup + i + 1)
      | none => allocateInodeFrom isDirectory n (g + 1)
    else allocateInodeFrom isDirectory n (g + 1)

def allocateInode (isDirectory : Bool) : Ext4M ℕ := fs.allocateInodeFrom isDirectory fs.groupsCount 0

def setBlockBitmap (group blockInGroup : ℕ) (value : Bool) : Ext4M Unit := do
  let gd ← fs.readLocations group
  let buffer ← fs.readBlock (fs.getBlockBitmap gd)
  journalWriteBlock (fs.getBlockBitmap gd) (buffer.setBit blockInGroup value)

def freeBlock (block : ℕ) : Ext4M Unit := do
  let group := (block - fs.firstDataBlock) / fs.blocksPerGroup
  fs.setBlockBitmap group ((block - fs.firstDataBlock) % fs.blocksPerGroup) false
  let gd ← fs.readGroupDesc group
  fs.writeGroupDesc group (gd.writeLE bgFreeBlocksCount 2 (gd.readLE bgFreeBlocksCount 2 + 1))
  BlockM.event (.freeBlock block)

/-! ## Extending a file -/

/-- A new extent at the end of those in the inode. -/
def addExtent (inode : Mem) (logical count block : ℕ) : Mem :=
  let p := entryAt iBlock (ehEntries inode iBlock)
  ((((inode.writeLE p 4 logical).writeLE (p + 4) 2 count).writeLE (p + 8) 4 block).writeLE (p + 6) 2
    (block / 2 ^ 32)).writeLE (iBlock + 2) 2 (ehEntries inode iBlock + 1)

def lastExtent (inode : Mem) : ℕ := entryAt iBlock (ehEntries inode iBlock - 1)

def extentAllocateBlocks (inode : Mem) (logical count : ℕ) : Ext4M (Bool × Mem) :=
  if ¬usesExtents inode then pure (false, inode)
  else if ehDepth inode iBlock ≠ 0 then pure (false, inode)
  else
    let p := lastExtent inode
    if 0 < ehEntries inode iBlock ∧ logical = (eeBlock inode p + eeLen inode p) % 2 ^ 32 then do
      let block ← fs.allocateBlock
      if block = 0 then pure (false, inode)
      else if block = eeStart inode p + eeLen inode p ∧ eeLen inode p < 32768 then
        pure (true, inode.writeLE (p + 4) 2 (eeLen inode p + 1))
      else if ehMax inode iBlock ≤ ehEntries inode iBlock then do
        fs.freeBlock block
        pure (false, inode)
      else pure (true, addExtent inode logical count block)
    else if ehMax inode iBlock ≤ ehEntries inode iBlock then pure (false, inode)
    else do
      let block ← fs.allocateBlock
      if block = 0 then pure (false, inode)
      else pure (true, addExtent inode logical count block)

end Ext4

end KeonOS
