import KeonOS.Ext4.Extend

/-!
# What the allocator counts

Each group has two bitmaps, and its descriptor counts their clear bits. The superblock in memory has the
counts of the whole volume. The calls of the allocator change a bit and a count together.

* **`Ext4.sameBlocks_give_take`**: a block that is taken and given back leaves no trace;
* `Ext4.AllocStep`, **`Ext4.allocation_accounting`**: runs of the allocator.
-/

namespace KeonOS

open List

/-! ## The superblock -/

/-- `s_free_blocks_count_lo` and `s_free_inodes_count` of the superblock in memory. -/
structure Ext4Counts where
  freeBlocks : UInt32
  freeInodes : UInt32
deriving DecidableEq, Repr

namespace Ext4Counts

def after (c : Ext4Counts) : Ext4Event → Ext4Counts
  | .allocBlock _ => { c with freeBlocks := c.freeBlocks - 1 }
  | .freeBlock _ => { c with freeBlocks := c.freeBlocks + 1 }
  | .allocInode _ => { c with freeInodes := c.freeInodes - 1 }

/-- The counts after the calls, the last one first. -/
def afterAll (c : Ext4Counts) (events : List Ext4Event) : Ext4Counts :=
  events.foldr (fun e c => c.after e) c

theorem afterAll_give_take (c : Ext4Counts) (b : ℕ) (events : List Ext4Event) :
    c.afterAll (.freeBlock b :: .allocBlock b :: events) = c.afterAll events := by
  simp only [afterAll, foldr_cons, after, UInt32.sub_add_cancel]

end Ext4Counts

namespace Ext4

variable (fs : Ext4)

/-! ## Bitmaps and counts -/

/-- The bitmaps have blocks of their own, which hold no descriptor. -/
structure TablesApart (d : ℕ → Mem) : Prop where
  block_desc : ∀ g < fs.groupsCount, ∀ g' < fs.groupsCount, fs.blockBitmapOf d g ≠ fs.descBlock g'
  inode_desc : ∀ g < fs.groupsCount, ∀ g' < fs.groupsCount, fs.inodeBitmapOf d g ≠ fs.descBlock g'
  block_inj : ∀ g < fs.groupsCount, ∀ g' < fs.groupsCount,
    fs.blockBitmapOf d g = fs.blockBitmapOf d g' → g = g'
  inode_inj : ∀ g < fs.groupsCount, ∀ g' < fs.groupsCount,
    fs.inodeBitmapOf d g = fs.inodeBitmapOf d g' → g = g'
  block_inode : ∀ g < fs.groupsCount, ∀ g' < fs.groupsCount, fs.blockBitmapOf d g ≠ fs.inodeBitmapOf d g'

/-- **The counts of every group are the numbers of clear bits.** -/
structure Accounted (d : ℕ → Mem) : Prop where
  blocks : ∀ g < fs.groupsCount, (fs.descOf d g).readLE bgFreeBlocksCount 2 =
    (d (fs.blockBitmapOf d g)).clearBits fs.blocksPerGroup
  inodes : ∀ g < fs.groupsCount, (fs.descOf d g).readLE bgFreeInodesCount 2 =
    (d (fs.inodeBitmapOf d g)).clearBits fs.inodesPerGroup

/-- The counts fit in 16 bits, the bitmaps in their blocks, and inode numbers in 32 bits. -/
structure CountsFit : Prop extends fs.DescsFit where
  blocks_le : fs.blocksPerGroup ≤ 65535
  inodes_le : fs.inodesPerGroup ≤ 65535
  inode_bitmap_fits : fs.inodesPerGroup ≤ 8 * fs.blockSize
  inodes_lt : fs.groupsCount * fs.inodesPerGroup < 2 ^ 32

def SameBlocks (d d' : ℕ → Mem) : Prop := ∀ b, (d' b).slice 0 fs.blockSize = (d b).slice 0 fs.blockSize

variable {fs} {use : ℕ → BlockUse} {live : ℕ → Prop} {d d' : ℕ → Mem} {s : Ext4Store}
  {bm g g' i : ℕ} {value : Bool} {gd : Mem}

theorem Consistent.tablesApart (h : fs.Consistent d use live) : fs.TablesApart d where
  block_desc _ hg _ hg' := h.bitmap_ne_desc hg hg'
  inode_desc _ hg _ hg' := h.inodeBitmap_ne_desc hg hg'
  block_inj g hg g' hg' heq := by
    have huse := h.blockBitmap g hg
    rw [heq, h.blockBitmap g' hg'] at huse
    exact (BlockUse.blockBitmap.inj huse).symm
  inode_inj g hg g' hg' heq := by
    have huse := h.inodeBitmap g hg
    rw [heq, h.inodeBitmap g' hg'] at huse
    exact (BlockUse.inodeBitmap.inj huse).symm
  block_inode g hg g' hg' heq := by
    have huse := h.blockBitmap g hg
    rw [heq, h.inodeBitmap g' hg'] at huse
    cases huse

theorem TablesApart.congr (h : fs.TablesApart d) (ht : SameTables fs d d') : fs.TablesApart d' where
  block_desc g hg g' hg' := by rw [ht.blockBitmapOf hg]; exact h.block_desc g hg g' hg'
  inode_desc g hg g' hg' := by rw [ht.inodeBitmapOf hg]; exact h.inode_desc g hg g' hg'
  block_inj g hg g' hg' := by
    rw [ht.blockBitmapOf hg, ht.blockBitmapOf hg']
    exact h.block_inj g hg g' hg'
  inode_inj g hg g' hg' := by
    rw [ht.inodeBitmapOf hg, ht.inodeBitmapOf hg']
    exact h.inode_inj g hg g' hg'
  block_inode g hg g' hg' := by
    rw [ht.blockBitmapOf hg, ht.inodeBitmapOf hg']
    exact h.block_inode g hg g' hg'

/-! ## A bit and a descriptor -/

theorem mark_disk (hne : bm ≠ fs.descBlock g) (b : ℕ) : (fs.mark bm g i value gd s).disk b =
      if b = fs.descBlock g then
        ((s.disk b).slice 0 fs.blockSize).copy (fs.descOffset g) groupDescBytes gd
      else if b = bm then ((s.disk b).slice 0 fs.blockSize).setBit i value else s.disk b := by
  rw [mark, Store.put_disk_of_ne (Ne.symm hne), Store.put_disk]
  split_ifs with hb hb'
  · rw [hb]
  · rw [hb', Store.put_disk_self]
  · exact Store.put_disk_of_ne hb'

theorem DescsFit.descOffset_disjoint (hw : fs.DescsFit) (hblock : fs.descBlock g = fs.descBlock g')
    (hne : g ≠ g') : fs.descOffset g + groupDescBytes ≤ fs.descOffset g' ∨
      fs.descOffset g' + groupDescBytes ≤ fs.descOffset g := by
  have hdiv := Nat.add_left_cancel hblock
  have hmod : g % (fs.blockSize / fs.groupDescSize) ≠ g' % (fs.blockSize / fs.groupDescSize) := by
    intro hmod
    have h1 := Nat.div_add_mod g (fs.blockSize / fs.groupDescSize)
    have h2 := Nat.div_add_mod g' (fs.blockSize / fs.groupDescSize)
    rw [hdiv, hmod] at h1
    exact hne (h1.symm.trans h2)
  rw [descOffset, descOffset, show fs.groupDescSize = 64 from hw.desc_size]
  rw [show fs.groupDescSize = 64 from hw.desc_size] at hmod
  have hbytes : groupDescBytes = 64 := rfl
  omega

theorem descOf_mark (hw : fs.DescsFit) (hne : ∀ g' < fs.groupsCount, bm ≠ fs.descBlock g')
    (hg : g < fs.groupsCount) (hg' : g' < fs.groupsCount) :
    fs.descOf (fs.mark bm g i value gd s).disk g' =
      if g' = g then gd.slice 0 groupDescBytes else fs.descOf s.disk g' := by
  rw [descOf, mark_disk (hne g hg), if_neg (Ne.symm (hne g' hg'))]
  by_cases heq : g' = g
  · rw [if_pos heq, if_pos (by rw [heq]), heq, Mem.slice_copy]
  · split_ifs with hblock
    · rw [Mem.slice_copy_of_disjoint (hw.descOffset_disjoint hblock heq),
        Mem.slice_slice (by have := hw.descOffset_le g'; omega), Nat.zero_add, descOf]
    · rfl

theorem readLE_slice_desc {p : ℕ} (hp : p + 2 ≤ groupDescBytes) :
    (gd.slice 0 groupDescBytes).readLE p 2 = gd.readLE p 2 := by
  rw [Mem.readLE_slice hp, Nat.zero_add]

theorem Accounted.mark (hacc : fs.Accounted s.disk) (hw : fs.DescsFit) (ht : fs.TablesApart s.disk)
    (hg : g < fs.groupsCount)
    (hbm : bm = fs.blockBitmapOf s.disk g ∨ bm = fs.inodeBitmapOf s.disk g)
    (hloc : ∀ j < groupDescBytes, j < 12 ∨ 18 ≤ j → gd j = s.disk (fs.descBlock g) (fs.descOffset g + j))
    (hblocks : gd.readLE bgFreeBlocksCount 2 = ((fs.mark bm g i value gd s).disk
      (fs.blockBitmapOf s.disk g)).clearBits fs.blocksPerGroup)
    (hinodes : gd.readLE bgFreeInodesCount 2 = ((fs.mark bm g i value gd s).disk
      (fs.inodeBitmapOf s.disk g)).clearBits fs.inodesPerGroup) :
    fs.Accounted (fs.mark bm g i value gd s).disk ∧
      TableStep fs bm g i value s.disk (fs.mark bm g i value gd s).disk := by
  have hne : ∀ g' < fs.groupsCount, bm ≠ fs.descBlock g' := by
    rcases hbm with rfl | rfl
    · exact ht.block_desc g hg
    · exact ht.inode_desc g hg
  have hstep : TableStep fs bm g i value s.disk (fs.mark bm g i value gd s).disk :=
    mark_step hw hne hg hloc
  have htab : SameTables fs s.disk (fs.mark bm g i value gd s).disk := hstep.locations
  -- the bitmaps of the other groups are in other blocks
  have hother : ∀ g' < fs.groupsCount, g' ≠ g →
      fs.blockBitmapOf s.disk g' ≠ bm ∧ fs.inodeBitmapOf s.disk g' ≠ bm := by
    intro g' hg' hgg
    rcases hbm with rfl | rfl
    · exact ⟨fun heq => hgg (ht.block_inj g' hg' g hg heq),
        fun heq => ht.block_inode g hg g' hg' heq.symm⟩
    · exact ⟨ht.block_inode g' hg' g hg, fun heq => hgg (ht.inode_inj g' hg' g hg heq)⟩
  refine ⟨⟨fun g' hg' => ?_, fun g' hg' => ?_⟩, hstep⟩
  · rw [descOf_mark hw hne hg hg', htab.blockBitmapOf hg']
    split_ifs with heq
    · rw [readLE_slice_desc (by norm_num), hblocks, heq]
    · rw [hacc.blocks g' hg', hstep.other _ (hother g' hg' heq).1 (ht.block_desc g' hg' g hg)]
  · rw [descOf_mark hw hne hg hg', htab.inodeBitmapOf hg']
    split_ifs with heq
    · rw [readLE_slice_desc (by norm_num), hinodes, heq]
    · rw [hacc.inodes g' hg', hstep.other _ (hother g' hg' heq).2 (ht.inode_desc g' hg' g hg)]

theorem readLE_writeLE_count (v : ℕ) :
    (gd.writeLE bgFreeBlocksCount 2 v).readLE bgFreeBlocksCount 2 = v % 2 ^ 16 ∧
      (gd.writeLE bgFreeBlocksCount 2 v).readLE bgFreeInodesCount 2 = gd.readLE bgFreeInodesCount 2 :=
  ⟨Mem.readLE_writeLE gd _ 2 v, Mem.readLE_writeLE_of_disjoint (by norm_num)⟩

theorem readLE_descTaken (isDirectory : Bool) : (descTaken isDirectory gd).readLE bgFreeInodesCount 2 =
        (gd.readLE bgFreeInodesCount 2 - 1) % 2 ^ 16 ∧
      (descTaken isDirectory gd).readLE bgFreeBlocksCount 2 = gd.readLE bgFreeBlocksCount 2 := by
  have h1 := Mem.readLE_writeLE gd bgFreeInodesCount 2 (gd.readLE bgFreeInodesCount 2 - 1)
  have h2 : (gd.writeLE bgFreeInodesCount 2 (gd.readLE bgFreeInodesCount 2 - 1)).readLE
      bgFreeBlocksCount 2 = gd.readLE bgFreeBlocksCount 2 :=
    Mem.readLE_writeLE_of_disjoint (by norm_num)
  cases isDirectory
  · exact ⟨h1, h2⟩
  · exact ⟨(Mem.readLE_writeLE_of_disjoint (by norm_num)).trans h1,
      (Mem.readLE_writeLE_of_disjoint (by norm_num)).trans h2⟩

/-! ## The calls -/

/-- The volume after `free_block` has given back block `i` of group `g`. -/
def giveBlock (fs : Ext4) (g i : ℕ) (s : Ext4Store) : Ext4Store :=
  (fs.mark (fs.blockBitmapOf s.disk g) g i false ((fs.descOf s.disk g).writeLE bgFreeBlocksCount 2
    ((fs.descOf s.disk g).readLE bgFreeBlocksCount 2 + 1)) s).emit (.freeBlock (fs.blockAt g i))

theorem exec_freeBlock_eq (ht : fs.TablesApart s.disk) (hg : g < fs.groupsCount)
    (hi : i < fs.blocksPerGroup) :
    (fs.freeBlock (fs.blockAt g i)).exec s = some ((), fs.giveBlock g i s) := by
  have hdesc : fs.descOf (s.put (fs.blockBitmapOf s.disk g)
      (((s.disk (fs.blockBitmapOf s.disk g)).slice 0 fs.blockSize).setBit i false)).disk g =
      fs.descOf s.disk g := by
    rw [descOf, Store.put_disk_of_ne (Ne.symm (ht.block_desc g hg g hg)), descOf]
  rw [giveBlock, ← hdesc]
  simp only [freeBlock, blockAt_div hi]
  rfl

theorem clearBits_mark (gd : Mem) {per : ℕ} (hper : per ≤ 8 * fs.blockSize) (hi : i < per)
    (hne : bm ≠ fs.descBlock g) (hbit : (s.disk bm).bit i = !value) :
    (value = true → ((fs.mark bm g i value gd s).disk bm).clearBits per + 1 =
      (s.disk bm).clearBits per) ∧
    (value = false → ((fs.mark bm g i value gd s).disk bm).clearBits per =
      (s.disk bm).clearBits per + 1) := by
  have hbits : ∀ j < per, ((fs.mark bm g i value gd s).disk bm).bit j =
      if j = i then value else (s.disk bm).bit j := by
    intro j hj
    rw [mark_disk hne, if_neg hne, if_pos rfl, Mem.bit_setBit, bit_slice (by omega)]
  refine ⟨fun hv => ?_, fun hv => ?_⟩
  · subst hv
    exact Mem.clearBits_set hi hbit hbits
  subst hv
  refine (Mem.clearBits_set hi (by rw [hbits i hi, if_pos rfl]) fun j hj => ?_).symm
  split_ifs with heq
  · rw [heq, hbit]
    rfl
  · rw [hbits j hj, if_neg heq]

section Calls

variable (hacc : fs.Accounted s.disk) (hw : fs.CountsFit) (ht : fs.TablesApart s.disk)
  (hg : g < fs.groupsCount)
include hacc hw ht hg

theorem Accounted.takeBlock (hi : i < fs.blocksPerGroup)
    (hbit : (s.disk (fs.blockBitmapOf s.disk g)).bit i = false) :
    fs.Accounted (fs.takeBlock g i s).disk ∧
      TableStep fs (fs.blockBitmapOf s.disk g) g i true s.disk (fs.takeBlock g i s).disk := by
  have hne := ht.block_desc g hg
  refine hacc.mark hw.toDescsFit ht hg (.inl rfl) (fun j hj hj' =>
    writeLE_desc (by norm_num) (by norm_num) (fun _ => slice_desc) hj hj') ?_ ?_
  · have hclear := (clearBits_mark ((fs.descOf s.disk g).writeLE bgFreeBlocksCount 2
      ((fs.descOf s.disk g).readLE bgFreeBlocksCount 2 - 1)) hw.bitmap_fits hi (hne g hg) hbit).1 rfl
    have hcount := hacc.blocks g hg
    have hlt : (fs.descOf s.disk g).readLE bgFreeBlocksCount 2 < 2 ^ 16 := Mem.readLE_lt _ _ 2
    rw [(readLE_writeLE_count _).1]
    omega
  · rw [(readLE_writeLE_count _).2, hacc.inodes g hg, mark_disk (hne g hg),
      if_neg (ht.inode_desc g hg g hg), if_neg (Ne.symm (ht.block_inode g hg g hg))]

theorem Accounted.giveBlock (hi : i < fs.blocksPerGroup)
    (hbit : (s.disk (fs.blockBitmapOf s.disk g)).bit i = true) :
    fs.Accounted (fs.giveBlock g i s).disk ∧
      TableStep fs (fs.blockBitmapOf s.disk g) g i false s.disk (fs.giveBlock g i s).disk := by
  have hne := ht.block_desc g hg
  refine hacc.mark hw.toDescsFit ht hg (.inl rfl) (fun j hj hj' =>
    writeLE_desc (by norm_num) (by norm_num) (fun _ => slice_desc) hj hj') ?_ ?_
  · have hclear := (clearBits_mark ((fs.descOf s.disk g).writeLE bgFreeBlocksCount 2
      ((fs.descOf s.disk g).readLE bgFreeBlocksCount 2 + 1)) hw.bitmap_fits hi (hne g hg) hbit).2 rfl
    have hle := Mem.clearBits_le ((fs.mark (fs.blockBitmapOf s.disk g) g i false
      ((fs.descOf s.disk g).writeLE bgFreeBlocksCount 2
        ((fs.descOf s.disk g).readLE bgFreeBlocksCount 2 + 1)) s).disk
      (fs.blockBitmapOf s.disk g)) fs.blocksPerGroup
    have hcount := hacc.blocks g hg
    have hblocks := hw.blocks_le
    rw [(readLE_writeLE_count _).1]
    omega
  · rw [(readLE_writeLE_count _).2, hacc.inodes g hg, mark_disk (hne g hg),
      if_neg (ht.inode_desc g hg g hg), if_neg (Ne.symm (ht.block_inode g hg g hg))]

theorem Accounted.takeInode (isDirectory : Bool) (hi : i < fs.inodesPerGroup)
    (hbit : (s.disk (fs.inodeBitmapOf s.disk g)).bit i = false) :
    fs.Accounted (fs.takeInode isDirectory g i s).disk ∧
      TableStep fs (fs.inodeBitmapOf s.disk g) g i true s.disk
        (fs.takeInode isDirectory g i s).disk := by
  have hne := ht.inode_desc g hg
  refine hacc.mark hw.toDescsFit ht hg (.inr rfl) (fun j => descTaken_apply isDirectory) ?_ ?_
  · rw [(readLE_descTaken isDirectory).2, hacc.blocks g hg, mark_disk (hne g hg),
      if_neg (ht.block_desc g hg g hg), if_neg (ht.block_inode g hg g hg)]
  have hclear := (clearBits_mark (descTaken isDirectory (fs.descOf s.disk g))
    hw.inode_bitmap_fits hi (hne g hg) hbit).1 rfl
  have hcount := hacc.inodes g hg
  have hlt : (fs.descOf s.disk g).readLE bgFreeInodesCount 2 < 2 ^ 16 := Mem.readLE_lt _ _ 2
  rw [(readLE_descTaken isDirectory).1]
  omega

end Calls

/-! ## Taking a block and giving it back -/

theorem desc_restored {j : ℕ} (hj : j < groupDescBytes) {c : ℕ}
    (hc : gd.readLE bgFreeBlocksCount 2 = c) (hpos : 0 < c) :
    (((gd.writeLE bgFreeBlocksCount 2 (c - 1)).slice 0 groupDescBytes).writeLE bgFreeBlocksCount 2
      (((gd.writeLE bgFreeBlocksCount 2 (c - 1)).slice 0 groupDescBytes).readLE
        bgFreeBlocksCount 2 + 1)) j = gd j := by
  have hlt : c < 2 ^ 16 := hc ▸ Mem.readLE_lt gd _ 2
  have hcount : ((gd.writeLE bgFreeBlocksCount 2 (c - 1)).slice 0 groupDescBytes).readLE
      bgFreeBlocksCount 2 + 1 = c := by
    rw [readLE_slice_desc (by norm_num), (readLE_writeLE_count _).1]
    omega
  rw [hcount]
  by_cases hx : bgFreeBlocksCount ≤ j ∧ j < bgFreeBlocksCount + 2
  · have hback := congrFun (Mem.writeLE_readLE gd bgFreeBlocksCount 2) j
    rw [hc, Mem.writeLE, if_pos hx] at hback
    rw [Mem.writeLE, if_pos hx, hback]
  · have hout : j < bgFreeBlocksCount ∨ bgFreeBlocksCount + 2 ≤ j := by omega
    rw [Mem.writeLE_apply_of_notMem hout, Mem.slice_apply hj, Nat.zero_add,
      Mem.writeLE_apply_of_notMem hout]

theorem takeBlock_step (hw : fs.DescsFit) (ht : fs.TablesApart s.disk) (hg : g < fs.groupsCount) :
    TableStep fs (fs.blockBitmapOf s.disk g) g i true s.disk (fs.takeBlock g i s).disk :=
  mark_step hw (ht.block_desc g hg) hg fun _ hj hj' =>
    writeLE_desc (by norm_num) (by norm_num) (fun _ => slice_desc) hj hj'

theorem sameBlocks_give_take (hw : fs.DescsFit) (ht : fs.TablesApart s.disk)
    (hg : g < fs.groupsCount) (hi : i < fs.blocksPerGroup)
    (hbit : (s.disk (fs.blockBitmapOf s.disk g)).bit i = false)
    (hcount : 0 < (fs.descOf s.disk g).readLE bgFreeBlocksCount 2) :
    fs.SameBlocks s.disk (fs.giveBlock g i (fs.takeBlock g i s)).disk := by
  have hne := ht.block_desc g hg
  have hbyte := hw.bit_in_block hi
  have hbm : fs.blockBitmapOf (fs.takeBlock g i s).disk g = fs.blockBitmapOf s.disk g :=
    SameTables.blockBitmapOf (takeBlock_step hw ht hg).locations hg
  have hdesc : fs.descOf (fs.takeBlock g i s).disk g = ((fs.descOf s.disk g).writeLE bgFreeBlocksCount 2
        ((fs.descOf s.disk g).readLE bgFreeBlocksCount 2 - 1)).slice 0 groupDescBytes := by
    rw [takeBlock, Store.emit_disk, descOf_mark hw hne hg hg, if_pos rfl]
  intro b
  rw [giveBlock, Store.emit_disk, hbm, hdesc, mark_disk (hne g hg), takeBlock, Store.emit_disk,
    mark_disk (hne g hg)]
  by_cases hb : b = fs.descBlock g
  · rw [if_pos hb, if_pos hb]
    refine Mem.slice_congr fun x hx => ?_
    rw [Nat.zero_add]
    by_cases hin : fs.descOffset g ≤ x ∧ x < fs.descOffset g + groupDescBytes
    · rw [Mem.copy_apply hin.1 hin.2, desc_restored (by omega) rfl hcount, descOf,
        Mem.slice_apply (by omega), Nat.add_sub_cancel' hin.1, hb]
    · have hout : x < fs.descOffset g ∨ fs.descOffset g + groupDescBytes ≤ x := by omega
      rw [Mem.copy_apply_of_notMem hout, Mem.slice_apply hx, Nat.zero_add,
        Mem.copy_apply_of_notMem hout, Mem.slice_apply hx, Nat.zero_add]
  · rw [if_neg hb, if_neg hb]
    by_cases hb' : b = fs.blockBitmapOf s.disk g
    · rw [if_pos hb', if_pos hb']
      have hshort : (((s.disk b).slice 0 fs.blockSize).setBit i true).slice 0 fs.blockSize =
          ((s.disk b).slice 0 fs.blockSize).setBit i true :=
        Mem.slice_eq_self_of_eq Mem.slice_slice_zero fun x hx =>
          Mem.setBit_apply_of_ne (by omega)
      rw [hshort, Mem.setBit_setBit_self, Mem.slice_slice_zero]
      rw [bit_slice hbyte, hb', hbit]
    · rw [if_neg hb', if_neg hb']

/-! ## Runs -/

variable (fs) in
/-- `get_inode_index` -/
def inodeIndex (ino : ℕ) : ℕ := (ino - 1) % fs.inodesPerGroup

variable (fs) in
def blockBit (d : ℕ → Mem) (g i : ℕ) : Bool := (d (fs.blockBitmapOf d g)).bit i

variable (fs) in
def inodeBit (d : ℕ → Mem) (g i : ℕ) : Bool := (d (fs.inodeBitmapOf d g)).bit i

theorem Consistent.blockAt_ne_zero (h : fs.Consistent s.disk use live) (hg : g < fs.groupsCount)
    (hi : i < fs.blocksPerGroup) (hbit : fs.blockBit s.disk g i = false) : fs.blockAt g i ≠ 0 := by
  intro hzero
  have hset := h.marked g hg i hi (by rw [hzero, h.zero]; exact BlockUse.noConfusion)
  rw [← blockBit, hbit] at hset
  cases hset

/-- A call of the allocator, with the blocks that were obtained and not yet given back. -/
inductive AllocStep (fs : Ext4) : Ext4Store × List ℕ → Ext4Store × List ℕ → Prop
  | block {s s' : Ext4Store} {held : List ℕ} {b : ℕ} (h : fs.allocateBlock.exec s = some (b, s')) :
      AllocStep fs (s, held) (s', if b = 0 then held else b :: held)
  | inode {s s' : Ext4Store} {held : List ℕ} {ino : ℕ} (isDirectory : Bool)
      (h : (fs.allocateInode isDirectory).exec s = some (ino, s')) : AllocStep fs (s, held) (s', held)
  | free {s s' : Ext4Store} {held : List ℕ} {b : ℕ} (hb : b ∈ held)
      (h : (fs.freeBlock b).exec s = some ((), s')) : AllocStep fs (s, held) (s', held.erase b)

/-- The invariant of the runs: the blocks that are held are marked. -/
structure AllocInv (fs : Ext4) (s : Ext4Store) (held : List ℕ) : Prop where
  apart : fs.TablesApart s.disk
  counts : fs.Accounted s.disk
  nodup : held.Nodup
  marked : ∀ b ∈ held, ∃ g < fs.groupsCount, ∃ i < fs.blocksPerGroup, b = fs.blockAt g i ∧
    fs.blockBit s.disk g i = true

theorem TableStep.blockBit (ht : fs.TablesApart d)
    (hs : TableStep fs (fs.blockBitmapOf d g) g i value d d') (hg : g < fs.groupsCount)
    (hg' : g' < fs.groupsCount) {j : ℕ} (hj : j / 8 < fs.blockSize) :
    fs.blockBit d' g' j = if g' = g ∧ j = i then value else fs.blockBit d g' j := by
  rw [Ext4.blockBit, SameTables.blockBitmapOf hs.locations hg', Ext4.blockBit]
  by_cases heq : g' = g
  · subst heq
    rw [hs.bit j hj]
    simp only [true_and]
  · rw [if_neg fun h => heq h.1, hs.other _ (fun h => heq (ht.block_inj g' hg' g hg h))
      (ht.block_desc g' hg' g hg)]

theorem TableStep.inodeBit (ht : fs.TablesApart d)
    (hs : TableStep fs (fs.inodeBitmapOf d g) g i value d d') (hg : g < fs.groupsCount)
    (hg' : g' < fs.groupsCount) {j : ℕ} (hj : j / 8 < fs.blockSize) :
    fs.inodeBit d' g' j = if g' = g ∧ j = i then value else fs.inodeBit d g' j := by
  rw [Ext4.inodeBit, SameTables.inodeBitmapOf hs.locations hg', Ext4.inodeBit]
  by_cases heq : g' = g
  · subst heq
    rw [hs.bit j hj]
    simp only [true_and]
  · rw [if_neg fun h => heq h.1, hs.other _ (fun h => heq (ht.inode_inj g' hg' g hg h))
      (ht.inode_desc g' hg' g hg)]

theorem TableStep.blockBit_inode (ht : fs.TablesApart d)
    (hs : TableStep fs (fs.inodeBitmapOf d g) g i value d d') (hg : g < fs.groupsCount)
    (hg' : g' < fs.groupsCount) (j : ℕ) : fs.blockBit d' g' j = fs.blockBit d g' j := by
  rw [Ext4.blockBit, SameTables.blockBitmapOf hs.locations hg', Ext4.blockBit,
    hs.other _ (ht.block_inode g' hg' g hg) (ht.block_desc g' hg' g hg)]

section Step

variable {held : List ℕ} (hinv : AllocInv fs s held) (hw : fs.CountsFit)
include hinv hw

theorem AllocInv.exec_allocateBlock : fs.allocateBlock.exec s = some (0, s) ∧
      (∀ g < fs.groupsCount, ∀ i < fs.blocksPerGroup, fs.blockBit s.disk g i = true) ∨
    ∃ g i, findBit fs s.disk bgFreeBlocksCount (fs.blockBitmapOf s.disk) fs.blocksPerGroup
        fs.groupsCount 0 = some (g, i) ∧
      fs.allocateBlock.exec s = some (fs.blockAt g i, fs.takeBlock g i s) ∧
      g < fs.groupsCount ∧ i < fs.blocksPerGroup ∧ fs.blockBit s.disk g i = false ∧
      0 < (fs.descOf s.disk g).readLE bgFreeBlocksCount 2 := by
  rw [allocateBlock, exec_allocateBlockFrom]
  cases hfind : findBit fs s.disk bgFreeBlocksCount (fs.blockBitmapOf s.disk) fs.blocksPerGroup
    fs.groupsCount 0 with
  | none =>
    refine .inl ⟨rfl, fun g hg i hi => ?_⟩
    -- a group whose count is zero has no clear bit
    by_contra hbit
    have hclear : 0 < (s.disk (fs.blockBitmapOf s.disk g)).clearBits fs.blocksPerGroup :=
      Mem.clearBits_pos.mpr ⟨i, hi, by simpa [Ext4.blockBit] using hbit⟩
    rw [← hinv.counts.blocks g hg] at hclear
    exact hbit (findBit_eq_none hw.bitmap_fits hfind (Nat.zero_le g) (by omega) hclear hi)
  | some r =>
    obtain ⟨g, i⟩ := r
    obtain ⟨-, hg, hcount, hi, hbit⟩ := findBit_eq_some hw.bitmap_fits hfind
    exact .inr ⟨g, i, rfl, rfl, by omega, hi, hbit, hcount⟩

theorem AllocInv.takeBlock (hg : g < fs.groupsCount) (hi : i < fs.blocksPerGroup)
    (hbit : fs.blockBit s.disk g i = false) :
    AllocInv fs (fs.takeBlock g i s) (if fs.blockAt g i = 0 then held else fs.blockAt g i :: held) := by
  obtain ⟨hacc, hstep⟩ := hinv.counts.takeBlock hw hinv.apart hg hi hbit
  have hbits := fun {g' j} (hg' : g' < fs.groupsCount) (hj : j < fs.blocksPerGroup) =>
    hstep.blockBit hinv.apart hg hg' (hw.bit_in_block hj)
  have hkeep : ∀ b ∈ held, ∃ g' < fs.groupsCount, ∃ j < fs.blocksPerGroup, b = fs.blockAt g' j ∧
      fs.blockBit (fs.takeBlock g i s).disk g' j = true := by
    intro b hb
    obtain ⟨g', hg', j, hj, rfl, hset⟩ := hinv.marked b hb
    refine ⟨g', hg', j, hj, rfl, ?_⟩
    rw [hbits hg' hj]
    split_ifs
    · rfl
    · exact hset
  have hnew : fs.blockAt g i ∉ held := by
    intro hmem
    obtain ⟨g', hg', j, hj, heq, hset⟩ := hinv.marked _ hmem
    obtain ⟨rfl, rfl⟩ := blockAt_inj hi hj heq
    rw [hbit] at hset
    cases hset
  split_ifs with h0
  · exact ⟨hinv.apart.congr hstep.locations, hacc, hinv.nodup, hkeep⟩
  · refine ⟨hinv.apart.congr hstep.locations, hacc, nodup_cons.mpr ⟨hnew, hinv.nodup⟩,
      forall_mem_cons.mpr ⟨⟨g, hg, i, hi, rfl, ?_⟩, hkeep⟩⟩
    rw [hbits hg hi, if_pos ⟨rfl, rfl⟩]

theorem AllocInv.takeInode (isDirectory : Bool) (hg : g < fs.groupsCount)
    (hi : i < fs.inodesPerGroup) (hbit : fs.inodeBit s.disk g i = false) :
    AllocInv fs (fs.takeInode isDirectory g i s) held := by
  obtain ⟨hacc, hstep⟩ := hinv.counts.takeInode hw hinv.apart hg isDirectory hi hbit
  refine ⟨hinv.apart.congr hstep.locations, hacc, hinv.nodup, fun b hb => ?_⟩
  obtain ⟨g', hg', j, hj, rfl, hset⟩ := hinv.marked b hb
  exact ⟨g', hg', j, hj, rfl, (hstep.blockBit_inode hinv.apart hg hg' j).trans hset⟩

theorem AllocInv.giveBlock {b : ℕ} (hb : b ∈ held) :
    ∃ s', (fs.freeBlock b).exec s = some ((), s') ∧ AllocInv fs s' (held.erase b) := by
  obtain ⟨g, hg, i, hi, rfl, hset⟩ := hinv.marked b hb
  obtain ⟨hacc, hstep⟩ := hinv.counts.giveBlock hw hinv.apart hg hi hset
  refine ⟨_, exec_freeBlock_eq hinv.apart hg hi, hinv.apart.congr hstep.locations, hacc,
    hinv.nodup.erase _, fun c hc => ?_⟩
  obtain ⟨hne, hmem⟩ := hinv.nodup.mem_erase_iff.mp hc
  obtain ⟨g', hg', j, hj, rfl, hset'⟩ := hinv.marked c hmem
  refine ⟨g', hg', j, hj, rfl, ?_⟩
  rw [hstep.blockBit hinv.apart hg hg' (hw.bit_in_block hj), if_neg, hset']
  rintro ⟨rfl, rfl⟩
  exact hne rfl

end Step

theorem CountsFit.exec_allocateInode (hw : fs.CountsFit) (isDirectory : Bool) :
    (fs.allocateInode isDirectory).exec s = some (0, s) ∨
    ∃ g i, (fs.allocateInode isDirectory).exec s =
        some (g * fs.inodesPerGroup + i + 1, fs.takeInode isDirectory g i s) ∧
      g < fs.groupsCount ∧ i < fs.inodesPerGroup ∧ fs.inodeBit s.disk g i = false := by
  rw [allocateInode, exec_allocateInodeFrom]
  cases hfind : findBit fs s.disk bgFreeInodesCount (fs.inodeBitmapOf s.disk) fs.inodesPerGroup
    fs.groupsCount 0 with
  | none => exact .inl rfl
  | some r =>
    obtain ⟨g, i⟩ := r
    obtain ⟨-, hg, -, hi, hbit⟩ := findBit_eq_some hw.inode_bitmap_fits hfind
    exact .inr ⟨g, i, rfl, by omega, hi, hbit⟩

theorem AllocInv.step (hw : fs.CountsFit) {p q : Ext4Store × List ℕ} (hinv : AllocInv fs p.1 p.2)
    (h : AllocStep fs p q) : AllocInv fs q.1 q.2 := by
  cases h with
  | @block s s' held b h =>
    rcases hinv.exec_allocateBlock hw with ⟨hnone, -⟩ | ⟨g, i, -, hsome, hg, hi, hbit, -⟩
    · cases hnone.symm.trans h
      exact hinv
    · cases hsome.symm.trans h
      exact hinv.takeBlock hw hg hi hbit
  | @inode s s' held ino isDirectory h =>
    rcases hw.exec_allocateInode isDirectory with hnone | ⟨g, i, hsome, hg, hi, hbit⟩
    · cases hnone.symm.trans h
      exact hinv
    · cases hsome.symm.trans h
      exact hinv.takeInode hw isDirectory hg hi hbit
  | @free s s' held b hb h =>
    obtain ⟨s'', hexec, hinv'⟩ := hinv.giveBlock hw hb
    cases hexec.symm.trans h
    exact hinv'

theorem AllocInv.run (hw : fs.CountsFit) {p q : Ext4Store × List ℕ} (hinv : AllocInv fs p.1 p.2)
    (h : Relation.ReflTransGen (AllocStep fs) p q) : AllocInv fs q.1 q.2 := by
  induction h with
  | refl => exact hinv
  | tail _ hstep ih => exact ih.step hw hstep

theorem findBit_first {count per n : ℕ} {bitmap : ℕ → ℕ} (hper : 0 < per) (hn : 0 < n)
    (hbs : 0 < fs.blockSize) (hcount : 0 < (fs.descOf d 0).readLE count 2)
    (hbit : (d (bitmap 0)).bit 0 = false) : findBit fs d count bitmap per n 0 = some (0, 0) := by
  obtain ⟨n, rfl⟩ := Nat.exists_eq_succ_of_ne_zero hn.ne'
  obtain ⟨per, rfl⟩ := Nat.exists_eq_succ_of_ne_zero hper.ne'
  have hfirst : firstBelow (per + 1) (fun i => !((d (bitmap 0)).slice 0 fs.blockSize).bit i) =
      some 0 := by
    rw [firstBelow, range_succ_eq_map, find?_cons_of_pos]
    rw [bit_slice (by omega), hbit]
    rfl
  rw [findBit, if_pos hcount, hfirst]

/-- **The accounts of the allocator** in every run from a volume whose counts are right. `allocate_block`
returns zero exactly when no bit is clear, unless block zero is free; a block that is given back at once
leaves no trace, and an inode number names its bit. -/
theorem allocation_accounting (hw : fs.CountsFit) {s₀ s : Ext4Store} {held : List ℕ}
    (ht : fs.TablesApart s₀.disk) (hacc : fs.Accounted s₀.disk)
    (hrun : Relation.ReflTransGen (AllocStep fs) (s₀, []) (s, held)) :
    fs.Accounted s.disk ∧
    (∃ b s', fs.allocateBlock.exec s = some (b, s') ∧
      ((b = 0 ↔ ∀ g < fs.groupsCount, ∀ i < fs.blocksPerGroup, fs.blockBit s.disk g i = true) ↔
        ¬(fs.firstDataBlock = 0 ∧ 0 < fs.groupsCount ∧ 0 < fs.blocksPerGroup ∧
          fs.blockBit s.disk 0 0 = false)) ∧
      (b ≠ 0 → ∃ s'', (fs.freeBlock b).exec s' = some ((), s'') ∧ fs.SameBlocks s.disk s''.disk ∧
        ∀ c : Ext4Counts, c.afterAll s''.events = c.afterAll s.events)) ∧
    ∀ isDirectory, ∃ ino s', (fs.allocateInode isDirectory).exec s = some (ino, s') ∧
      (ino ≠ 0 → fs.inodeGroup ino < fs.groupsCount ∧ fs.inodeIndex ino < fs.inodesPerGroup ∧
        fs.inodeBit s.disk (fs.inodeGroup ino) (fs.inodeIndex ino) = false ∧
        ∀ g < fs.groupsCount, ∀ i < fs.inodesPerGroup, fs.inodeBit s'.disk g i =
          if g = fs.inodeGroup ino ∧ i = fs.inodeIndex ino then true
          else fs.inodeBit s.disk g i) := by
  have hinv : AllocInv fs s held :=
    AllocInv.run hw ⟨ht, hacc, nodup_nil, fun b hb => absurd hb not_mem_nil⟩ hrun
  refine ⟨hinv.counts, ?_, fun isDirectory => ?_⟩
  · rcases hinv.exec_allocateBlock hw with ⟨hnone, hall⟩ | ⟨g, i, hfind, hsome, hg, hi, hbit, hcount⟩
    · refine ⟨0, s, hnone, ⟨fun _ ⟨_, h1, h2, h3⟩ => ?_, fun _ => ⟨fun _ => hall, fun _ => rfl⟩⟩,
        fun hne => absurd rfl hne⟩
      rw [hall 0 h1 0 h2] at h3
      cases h3
    have hnot : ¬∀ g < fs.groupsCount, ∀ i < fs.blocksPerGroup, fs.blockBit s.disk g i = true := by
      intro hall
      rw [hall g hg i hi] at hbit
      cases hbit
    refine ⟨_, _, hsome, ⟨fun hiff ⟨h0, h1, h2, h3⟩ => ?_, fun hok => ?_⟩, fun _ => ?_⟩
    · -- the first bit is clear, so that it is the one that was found
      have hclear : 0 < (s.disk (fs.blockBitmapOf s.disk 0)).clearBits fs.blocksPerGroup :=
        Mem.clearBits_pos.mpr ⟨0, h2, h3⟩
      rw [← hinv.counts.blocks 0 h1] at hclear
      have hbs : 0 < fs.blockSize := by
        have := hw.bitmap_fits
        omega
      rw [findBit_first h2 h1 hbs hclear h3] at hfind
      cases hfind
      exact hnot (hiff.mp (by rw [blockAt, h0, Nat.zero_mul]))
    · refine ⟨fun hzero => absurd ?_ hok, fun hall => absurd hall hnot⟩
      rw [blockAt] at hzero
      obtain rfl : i = 0 := by omega
      have hg0 : g = 0 := by
        have hmul : g * fs.blocksPerGroup = 0 := by omega
        exact (Nat.mul_eq_zero.mp hmul).resolve_right (by omega)
      subst hg0
      exact ⟨by omega, hg, hi, hbit⟩
    · have hstep := (hinv.counts.takeBlock hw hinv.apart hg hi hbit).2
      refine ⟨_, exec_freeBlock_eq (hinv.apart.congr hstep.locations) hg hi,
        sameBlocks_give_take hw.toDescsFit hinv.apart hg hi hbit hcount, fun c => ?_⟩
      exact c.afterAll_give_take (fs.blockAt g i) s.events
  · rcases hw.exec_allocateInode isDirectory with hnone | ⟨g, i, hsome, hg, hi, hbit⟩
    · exact ⟨0, s, hnone, fun hne => absurd rfl hne⟩
    have hstep := (hinv.counts.takeInode hw hinv.apart hg isDirectory hi hbit).2
    refine ⟨_, _, hsome, fun _ => ?_⟩
    rw [inodeIndex, (inode_of_bit g hi).1, (inode_of_bit g hi).2]
    refine ⟨hg, hi, hbit, fun g' hg' j hj => hstep.inodeBit hinv.apart hg hg' ?_⟩
    have := hw.inode_bitmap_fits
    omega

/-! ## Small volumes -/

theorem small_countsFit : small.CountsFit :=
  ⟨⟨rfl, by decide, by decide⟩, by decide, by decide, by decide, by decide⟩

theorem small_accounted : small.Accounted smallDisk := by
  refine ⟨fun g hg => ?_, fun g hg => ?_⟩
  all_goals
    obtain rfl : g = 0 := Nat.lt_one_iff.mp hg
    decide +kernel

theorem allocation_accounting_small : ∃ b s', small.allocateBlock.exec ⟨smallDisk, []⟩ = some (b, s') ∧
    b = 17 ∧ ∃ s'', (small.freeBlock b).exec s' = some ((), s'') ∧
      small.SameBlocks smallDisk s''.disk := by
  obtain ⟨-, ⟨b, s', hexec, -, hback⟩, -⟩ := allocation_accounting small_countsFit
    (small_consistent.tablesApart (d := smallDisk)) small_accounted
    (Relation.ReflTransGen.refl (a := (⟨smallDisk, []⟩, [])))
  have hb : (small.allocateBlock.exec ⟨smallDisk, []⟩).map Prod.fst = some 17 := by decide +kernel
  rw [hexec, Option.map_some, Option.some.injEq] at hb
  have hb : b = 17 := hb
  obtain ⟨s'', hfree, hsame, -⟩ := hback (by rw [hb]; decide)
  exact ⟨b, s', hexec, hb, s'', hfree, hsame⟩

def zeroVolume : Ext4 := { small with firstDataBlock := 0 }

def zeroDisk : ℕ → Mem
  | 1 => ((((Mem.writeLE (fun _ => 0) 0 4 3).writeLE 4 4 4).writeLE 8 4 5).writeLE bgFreeBlocksCount 2
      64).writeLE bgFreeInodesCount 2 16
  | _ => fun _ => 0

/-- **Block zero is handed out**: the call returns zero although all bits were clear, and the block
is marked. -/
theorem allocation_of_block_zero : zeroVolume.CountsFit ∧ zeroVolume.TablesApart zeroDisk ∧
    zeroVolume.Accounted zeroDisk ∧ zeroVolume.blockBit zeroDisk 0 0 = false ∧
    ∃ s', zeroVolume.allocateBlock.exec ⟨zeroDisk, []⟩ = some (0, s') ∧
      zeroVolume.blockBit s'.disk 0 0 = true := by
  have hone : ∀ {P : ℕ → Prop}, P 0 → ∀ g < zeroVolume.groupsCount, P g := by
    intro P h0 g hg
    obtain rfl : g = 0 := Nat.lt_one_iff.mp hg
    exact h0
  refine ⟨⟨⟨rfl, by decide, by decide⟩, by decide, by decide, by decide, by decide⟩, ?_,
    ⟨hone (by decide +kernel), hone (by decide +kernel)⟩, by decide +kernel, ?_⟩
  · exact ⟨hone (hone (by decide +kernel)), hone (hone (by decide +kernel)),
      hone (hone fun _ => rfl), hone (hone fun _ => rfl), hone (hone (by decide +kernel))⟩
  · refine ⟨zeroVolume.takeBlock 0 0 ⟨zeroDisk, []⟩, ?_, by decide +kernel⟩
    rfl

end Ext4

end KeonOS
