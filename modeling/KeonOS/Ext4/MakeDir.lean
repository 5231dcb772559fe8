import KeonOS.Ext4.Accounting
import KeonOS.Ext4.Map

/-!
# Making a directory, or nothing

`mkdir` takes an inode and a block, writes both, and then looks for room in the parent. It gives nothing
back when there is no block, and reports a directory as made when the parent has no room for its entry.

* **`Ext4.mkdir_all_or_nothing_iff`**: when it does so.
-/

namespace KeonOS

namespace Ext4

variable (fs : Ext4)

/-- Some group has a free block, by its count and by its bitmap. -/
def FreeBlock (d : ℕ → Mem) : Prop :=
  ∃ g < fs.groupsCount, 0 < (fs.descOf d g).readLE bgFreeBlocksCount 2 ∧
    ∃ i < fs.blocksPerGroup, fs.blockBit d g i = false

def FreeInode (d : ℕ → Mem) : Prop :=
  ∃ g < fs.groupsCount, 0 < (fs.descOf d g).readLE bgFreeInodesCount 2 ∧
    ∃ i < fs.inodesPerGroup, fs.inodeBit d g i = false

/-- **What `mkdir` should do**: make a directory with `.` and `..`, or leave no trace. -/
structure MadeOrUndone (s : Ext4Store) (dir : Ext4Node) (name : List UInt8) (ok : Bool) (dir' : Ext4Node)
    (s' : Ext4Store) : Prop where
  made : ok = true → ∃ n, (fs.finddir dir' name).exec s' = some (some n, s') ∧ n.isDir = true ∧
    fs.Finds s' n [0x2E] (some n.ino) ∧ fs.Finds s' n [0x2E, 0x2E] (some dir.ino)
  blockBits : ok = false → ∀ g < fs.groupsCount, ∀ i < fs.blocksPerGroup,
    fs.blockBit s'.disk g i = fs.blockBit s.disk g i
  inodeBits : ok = false → ∀ g < fs.groupsCount, ∀ i < fs.inodesPerGroup,
    fs.inodeBit s'.disk g i = fs.inodeBit s.disk g i
  groupCounts : ok = false → ∀ g < fs.groupsCount, fs.descOf s'.disk g = fs.descOf s.disk g
  counts : ok = false → ∀ c : Ext4Counts, c.afterAll s'.events = c.afterAll s.events
  parent : ok = false → dir' = dir ∧ fs.inodeOf s'.disk dir.ino = fs.inodeOf s.disk dir.ino ∧
    fs.dirEntries s'.disk dir.inode = fs.dirEntries s.disk dir.inode

variable {fs} {s s' : Ext4Store} {d : ℕ → Mem} {use : ℕ → BlockUse} {live : ℕ → Prop} {dir : Ext4Node}
  {name : List UInt8}

/-! ## What the allocator can give -/

theorem findBit_eq_none_iff {count per n : ℕ} {bitmap : ℕ → ℕ} (hper : per ≤ 8 * fs.blockSize) :
    findBit fs d count bitmap per n 0 = none ↔
      ¬∃ g < n, 0 < (fs.descOf d g).readLE count 2 ∧ ∃ i < per, (d (bitmap g)).bit i = false := by
  constructor
  · rintro hnone ⟨g, hg, hcount, i, hi, hbit⟩
    rw [findBit_eq_none hper hnone (Nat.zero_le g) (by omega) hcount hi] at hbit
    cases hbit
  intro hno
  rw [Option.eq_none_iff_forall_ne_some]
  rintro ⟨g, i⟩ hsome
  obtain ⟨-, hg, hcount, hi, hbit⟩ := findBit_eq_some hper hsome
  exact hno ⟨g, by omega, hcount, i, hi, hbit⟩

variable {ino b : ℕ} {isDirectory : Bool}

theorem allocateInode_eq_zero_iff (hw : fs.WellFormed)
    (h : (fs.allocateInode isDirectory).exec s = some (ino, s')) : ino = 0 ↔ ¬fs.FreeInode s.disk := by
  have hiff : findBit fs s.disk bgFreeInodesCount (fs.inodeBitmapOf s.disk) fs.inodesPerGroup
      fs.groupsCount 0 = none ↔ ¬fs.FreeInode s.disk := findBit_eq_none_iff hw.inode_bitmap_fits
  rw [allocateInode, exec_allocateInodeFrom] at h
  rw [← hiff]
  cases hfind : findBit fs s.disk bgFreeInodesCount (fs.inodeBitmapOf s.disk) fs.inodesPerGroup
    fs.groupsCount 0 with
  | none =>
    rw [hfind] at h
    exact iff_of_true (congrArg Prod.fst (Option.some.inj h)).symm rfl
  | some r =>
    rw [hfind] at h
    have hino := congrArg Prod.fst (Option.some.inj h)
    refine iff_of_false (fun h0 => ?_) (Option.some_ne_none r)
    rw [h0] at hino
    exact Nat.succ_ne_zero _ hino

theorem allocateBlock_eq_zero_iff (hw : fs.WellFormed) (hc : fs.Consistent s.disk use live)
    (h : fs.allocateBlock.exec s = some (b, s')) : b = 0 ↔ ¬fs.FreeBlock s.disk := by
  have hiff : findBit fs s.disk bgFreeBlocksCount (fs.blockBitmapOf s.disk) fs.blocksPerGroup
      fs.groupsCount 0 = none ↔ ¬fs.FreeBlock s.disk := findBit_eq_none_iff hw.bitmap_fits
  rw [allocateBlock, exec_allocateBlockFrom] at h
  rw [← hiff]
  cases hfind : findBit fs s.disk bgFreeBlocksCount (fs.blockBitmapOf s.disk) fs.blocksPerGroup
    fs.groupsCount 0 with
  | none =>
    rw [hfind] at h
    exact iff_of_true (congrArg Prod.fst (Option.some.inj h)).symm rfl
  | some r =>
    obtain ⟨-, hg, -, hi, hbit⟩ := findBit_eq_some hw.bitmap_fits hfind
    rw [hfind] at h
    have hb : fs.blockAt r.1 r.2 = b := congrArg Prod.fst (Option.some.inj h)
    rw [Nat.zero_add] at hg
    exact iff_of_false (hb ▸ hc.blockAt_ne_zero hg hi hbit) (Option.some_ne_none r)

theorem freeBlock_allocateInode (hw : fs.WellFormed) (ht : fs.TablesApart s.disk)
    (h : (fs.allocateInode isDirectory).exec s = some (ino, s')) :
    fs.FreeBlock s'.disk ↔ fs.FreeBlock s.disk := by
  rw [allocateInode, exec_allocateInodeFrom] at h
  cases hfind : findBit fs s.disk bgFreeInodesCount (fs.inodeBitmapOf s.disk) fs.inodesPerGroup
    fs.groupsCount 0 with
  | none =>
    rw [hfind] at h
    rw [show s = s' from congrArg Prod.snd (Option.some.inj h)]
  | some r =>
    obtain ⟨-, hg, -, -, -⟩ := findBit_eq_some hw.inode_bitmap_fits hfind
    rw [Nat.zero_add] at hg
    rw [hfind] at h
    obtain rfl : fs.takeInode isDirectory r.1 r.2 s = s' := congrArg Prod.snd (Option.some.inj h)
    have hw' := hw.blocksFit.toDescsFit
    have hne := ht.inode_desc r.1 hg
    have hstep : TableStep fs (fs.inodeBitmapOf s.disk r.1) r.1 r.2 true s.disk
        (fs.takeInode isDirectory r.1 r.2 s).disk :=
      mark_step hw' hne hg fun _ => descTaken_apply isDirectory
    have hcount : ∀ g < fs.groupsCount,
        (fs.descOf (fs.takeInode isDirectory r.1 r.2 s).disk g).readLE bgFreeBlocksCount 2 =
          (fs.descOf s.disk g).readLE bgFreeBlocksCount 2 := by
      intro g hg'
      rw [takeInode, Store.emit_disk, descOf_mark hw' hne hg hg']
      split_ifs with heq
      · rw [readLE_slice_desc (by norm_num), (readLE_descTaken isDirectory).2, heq]
      · rfl
    refine exists_congr fun g => and_congr_right fun hg' => ?_
    rw [hcount g hg']
    simp only [hstep.blockBit_inode ht hg hg']

/-! ## The call -/

theorem inodeMarked_iff :
    fs.inodeMarked d ino ↔ fs.inodeBit d (fs.inodeGroup ino) ((ino - 1) % fs.inodesPerGroup) = true :=
  Iff.rfl

theorem InodeTaken.not_undone (hw : fs.WellFormed) (ht : InodeTaken fs use live ino s s')
    {dir' : Ext4Node} : ¬fs.MadeOrUndone s dir name false dir' s' := by
  intro h
  have hbit := h.inodeBits rfl (fs.inodeGroup ino) ht.group ((ino - 1) % fs.inodesPerGroup)
    (Nat.mod_lt _ hw.inodes_pos)
  refine ht.fresh (inodeMarked_iff.mpr (hbit ▸ inodeMarked_iff.mp ?_))
  exact (ht.marks ino ht.pos ht.group).mpr (.inr rfl)

theorem MadeDir.madeOrUndone_iff (hw : fs.WellFormed) (hv : fs.Volume s.disk use live)
    (hn : fs.NodeOk s.disk use live dir) (hdir : dir.isDir = true)
    (h : MadeDir fs use live dir name s s' ino b) (hnew : fs.Finds s dir name none) :
    fs.MadeOrUndone s dir name true { dir with inode := addLink dir.inode } s' ↔
      fs.HasRoom s dir name := by
  have hn' := h.nodeOk hn hdir
  have hexec : (fs.finddir { dir with inode := addLink dir.inode } name).exec s' = _ :=
    exec_finddir hw.blockSize_pos hn'.inode.mapReads (hn'.dirOk h.volume hdir) hn'.size
  rw [hn'.dirEntries_eq h.volume hdir] at hexec
  rw [hn.finds_iff hw hv hdir] at hnew
  rw [hn.hasRoom_iff hw hv hdir]
  constructor
  · intro hmade hfull
    obtain ⟨n, hfind, -⟩ := hmade.made rfl
    rw [hexec, h.full hfull, hnew] at hfind
    cases hfind
  intro hroom
  obtain ⟨A, B, hold, hentries⟩ := h.entries hroom
  have hlookup : (fs.entriesOf s'.disk dir.ino).lookup name = some ino := by
    rw [hold] at hnew
    rw [hentries, lookup_insert hnew ino, if_pos rfl]
  have hmode : isDirectoryMode (fs.inodeOf s'.disk ino) = true := by
    rw [h.inode]
    exact isDirectoryMode_newDirInode b
  have hnode := h.volume.nodeOk (show live ino ∨ ino = ino from .inr rfl)
  rw [hlookup] at hexec
  refine ⟨fun _ => ⟨_, hexec, hmode, ?_, ?_⟩, nofun, nofun, nofun, nofun, nofun⟩
  · rw [hnode.finds_iff hw h.volume hmode, h.dots]
    rfl
  · rw [hnode.finds_iff hw h.volume hmode, h.dots]
    rfl

/-- **`mkdir` makes a directory or leaves no trace** exactly if there is no free inode, or there is a free
block and room in the parent. -/
theorem mkdir_all_or_nothing_iff (hw : fs.WellFormed) (hf : fs.DirsFit) (hopen : fs.OpenDir s dir)
    (hname : name.length < 256) (hnew : fs.Finds s dir name none) :
    (∃ ok dir' s', (fs.mkdir dir name).exec s = some ((ok, dir'), s') ∧
      fs.MadeOrUndone s dir name ok dir' s') ↔
    ¬fs.FreeInode s.disk ∨ fs.FreeBlock s.disk ∧ fs.HasRoom s dir name := by
  obtain ⟨use, live, hv, hn, hdir⟩ := hopen
  rcases exec_mkdir_cases hw hf hv hn hdir hname with ⟨hino, hexec⟩ |
    ⟨ino, s₁, hino, hblock, hexec, ht⟩ | ⟨ino, b, s₁, s₂, s', hino, h0, hblock, hb0, hexec, hmade⟩
  · -- no inode: nothing has happened
    refine iff_of_true ⟨false, dir, s, hexec, nofun, fun _ _ _ _ _ => rfl, fun _ _ _ _ _ => rfl,
      fun _ _ _ => rfl, fun _ _ => rfl, fun _ => ⟨rfl, rfl, rfl⟩⟩ (.inl ?_)
    exact (allocateInode_eq_zero_iff hw hino).mp rfl
  · -- no block: the inode is kept
    have hfree := mt (allocateInode_eq_zero_iff hw hino).mpr ht.pos.ne'
    have hnone := (allocateBlock_eq_zero_iff hw ht.consistent hblock).mp rfl
    rw [freeBlock_allocateInode hw hv.consistent.tablesApart hino] at hnone
    refine iff_of_false ?_ fun h => h.elim hfree fun h => hnone h.1
    rintro ⟨ok, dir', s', hexec', hok⟩
    cases hexec.symm.trans hexec'
    exact ht.not_undone hw hok
  · -- a directory was made: it is found if the parent had room
    have hcons : fs.Consistent s₁.disk use live := by
      rcases exec_allocateInode_taken hw hv.consistent true with hnone | ⟨ino', s₁', hino', ht⟩
      · cases hino.symm.trans hnone
        exact absurd rfl h0
      · cases hino.symm.trans hino'
        exact ht.consistent
    have hfree := mt (allocateInode_eq_zero_iff hw hino).mpr h0
    have hsome := mt (allocateBlock_eq_zero_iff hw hcons hblock).mpr hb0
    rw [not_not, freeBlock_allocateInode hw hv.consistent.tablesApart hino] at hsome
    rw [or_iff_right hfree, and_iff_right hsome, ← hmade.madeOrUndone_iff hw hv hn hdir hnew]
    refine ⟨?_, fun h => ⟨_, _, _, hexec, h⟩⟩
    rintro ⟨ok, dir', s'', hexec', hok⟩
    cases hexec.symm.trans hexec'
    exact hok

/-! ## Small volumes -/

theorem mkdir_all_or_nothing_small : ∃ ok dir' s',
    (small.mkdir smallRoot [0x67]).exec ⟨smallDisk, []⟩ = some ((ok, dir'), s') ∧
      small.MadeOrUndone ⟨smallDisk, []⟩ smallRoot [0x67] ok dir' s' := by
  have hv : small.Volume (Store.disk ⟨smallDisk, ([] : List Ext4Event)⟩) smallUse smallLive := small_volume
  refine (mkdir_all_or_nothing_iff small_wellFormed small_dirsFit ⟨_, _, hv, small_root, rfl⟩ (by decide)
    ?_).mpr (.inr ⟨?_, ?_⟩)
  · rw [small_root.finds_iff small_wellFormed hv rfl, show smallRoot.ino = 2 from rfl, small_rootOk.2]
    decide
  · exact ⟨0, by decide, by decide +kernel, 16, by decide, by decide +kernel⟩
  · rw [small_root.hasRoom_iff small_wellFormed hv rfl]
    decide +kernel

/-- The small volume with 16 blocks, all of them in use. -/
def tight : Ext4 := { small with blocksPerGroup := 16 }

def tightDisk : ℕ → Mem := Function.update smallDisk 2
  ((((Mem.writeLE (fun _ => 0) 0 4 3).writeLE 4 4 4).writeLE 8 4 5).writeLE bgFreeInodesCount 2 3)

theorem tight_inodeOf (h : smallLive ino) :
    tight.inodeOf tightDisk ino = small.inodeOf smallDisk ino := by
  have hall : ∀ ino ∈ [2, 8, 12, 13], tight.inodePlace tightDisk ino = small.inodePlace smallDisk ino ∧
      small.inodePlace smallDisk ino ≠ 2 := by decide +kernel
  obtain ⟨hplace, hne⟩ := hall ino h
  rw [inodeOf, hplace, tightDisk, Function.update_of_ne hne]
  rfl

theorem tight_wellFormed : tight.WellFormed := by
  constructor <;> decide

theorem tight_inodeOk (h : smallLive ino) :
    tight.InodeOk tightDisk smallUse ino (tight.inodeOf tightDisk ino) := by
  have hdepth : ∀ ino ∈ [2, 8, 12, 13], ehDepth (small.inodeOf smallDisk ino) iBlock = 0 := by
    decide +kernel
  have hok := small_inodeOk h
  rw [tight_inodeOf h]
  refine ⟨hok.short, hok.magic, fun hu => ?_, hok.entries⟩
  have htree := hok.tree hu
  rw [hdepth ino h] at htree ⊢
  exact htree

theorem tight_consistent : tight.Consistent tightDisk smallUse smallLive := by
  have hgroup : ∀ ino, 0 < ino → tight.inodeGroup ino < tight.groupsCount → ino < 17 := by
    intro ino _ h
    simp only [inodeGroup, tight, small] at h
    omega
  refine ⟨rfl, by decide +kernel, by decide +kernel, by decide +kernel, fun ino h0 hg => ?_,
    by decide +kernel, fun ino h => ?_, fun ino h => tight_inodeOk h⟩
  · have hall : ∀ ino < 17, 0 < ino → smallUse (tight.inodePlace tightDisk ino) =
        .inodeTable (tight.inodeGroup ino) (tight.inodeBlock ino) := by decide +kernel
    exact hall ino (hgroup ino h0 hg) h0
  · have hall : ∀ ino ∈ [2, 8, 12, 13], 0 < ino ∧ tight.inodeGroup ino < tight.groupsCount := by decide
    exact hall ino h

theorem tight_volume : tight.Volume tightDisk smallUse smallLive := by
  refine ⟨tight_consistent, fun ino h => ?_, fun ino h hmode => ?_⟩
  · have hall : ∀ ino ∈ [2, 8, 12, 13], tight.inodeMarked tightDisk ino := by
      unfold inodeMarked
      decide +kernel
    exact hall ino h
  have hall : ∀ ino ∈ [2, 8, 12, 13], isDirectoryMode (small.inodeOf smallDisk ino) = true → ino = 2 := by
    decide +kernel
  rw [tight_inodeOf h] at hmode
  obtain rfl := hall ino h hmode
  refine ⟨⟨by decide +kernel, fun l hl _ => ?_⟩, ?_⟩
  · have hcount : tight.dirBlocks (tight.inodeOf tightDisk 2) = 1 := by decide +kernel
    obtain rfl : l = 0 := by omega
    exact ⟨_, small_tiles⟩
  · unfold smallLive
    decide

def tightRoot : Ext4Node := ⟨true, 2, tight.inodeOf tightDisk 2, inodeSizeOf (tight.inodeOf tightDisk 2)⟩

/-- **The inode is lost**: there is no block for the new directory, and the call returns with the bit of
the inode set. -/
theorem mkdir_leaks_inode : tight.WellFormed ∧ tight.DirsFit ∧ tight.OpenDir ⟨tightDisk, []⟩ tightRoot ∧
    tight.Finds ⟨tightDisk, []⟩ tightRoot [0x67] none ∧
    ∃ dir' s', (tight.mkdir tightRoot [0x67]).exec ⟨tightDisk, []⟩ = some ((false, dir'), s') ∧
      tight.inodeBit tightDisk 0 13 = false ∧ tight.inodeBit s'.disk 0 13 = true := by
  have hmode : isDirectoryMode (tight.inodeOf tightDisk 2) = true := by decide +kernel
  have hn : tight.NodeOk tightDisk smallUse smallLive tightRoot := by
    have hopen := tight_volume.nodeOk (show smallLive 2 by unfold smallLive; decide)
    rwa [hmode] at hopen
  have hentries : tight.entriesOf tightDisk 2 = [([0x2E], 2), ([0x2E, 0x2E], 2), ([0x66], 12)] := by
    decide +kernel
  have hinode : (tight.allocateInode true).exec ⟨tightDisk, []⟩ =
      some (14, tight.takeInode true 0 13 ⟨tightDisk, []⟩) := by
    rfl
  refine ⟨tight_wellFormed, ⟨by decide, by decide⟩, ⟨_, _, tight_volume, hn, rfl⟩, ?_, tightRoot,
    tight.takeInode true 0 13 ⟨tightDisk, []⟩, ?_, by decide +kernel, by decide +kernel⟩
  · rw [hn.finds_iff (s := ⟨tightDisk, []⟩) tight_wellFormed tight_volume rfl,
      show tightRoot.ino = 2 from rfl, hentries]
    decide
  · rfl

end Ext4

end KeonOS
