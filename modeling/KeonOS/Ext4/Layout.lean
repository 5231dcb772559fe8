import KeonOS.Ext4.Nodes

/-!
# Consistent volumes

What each block of a volume is used for. On a consistent volume every block has one use, so that no
block is mapped twice, and the block bitmap marks every block that is in use.

* `BlockUse`, `Ext4.InodeOk`, **`Ext4.Consistent`**: the uses;
* **`Ext4.exec_extentGetBlock`**: the lookup ends, at a block of the file.
-/

namespace KeonOS

open List

/-- The use of a block: a table of the volume, a node of an extent tree, or a block of a file. -/
inductive BlockUse
  | free
  | super
  | desc (k : ℕ)
  | blockBitmap (group : ℕ)
  | inodeBitmap (group : ℕ)
  | inodeTable (group k : ℕ)
  | tree (ino : ℕ)
  | data (ino logical : ℕ)
deriving DecidableEq, Repr

namespace Ext4

variable (fs : Ext4)

/-- The driver copies 64 bytes of a descriptor and 160 of an inode. -/
structure WellFormed : Prop where
  desc_size : fs.groupDescSize = groupDescBytes
  desc_fits : groupDescBytes ≤ fs.blockSize
  inode_size : inodeBytes ≤ fs.inodeSize
  inode_fits : fs.inodeSize ≤ fs.blockSize
  inodes_pos : 0 < fs.inodesPerGroup
  blocks_pos : 0 < fs.blocksPerGroup
  bitmap_fits : fs.blocksPerGroup ≤ 8 * fs.blockSize
  inode_bitmap_fits : fs.inodesPerGroup ≤ 8 * fs.blockSize
  last_block : fs.firstDataBlock + fs.groupsCount * fs.blocksPerGroup ≤ 2 ^ 48

/-- What the allocator of blocks needs: descriptors of 64 bytes, and a bitmap that fits in its block. -/
structure DescsFit : Prop where
  desc_size : fs.groupDescSize = groupDescBytes
  desc_fits : groupDescBytes ≤ fs.blockSize
  bitmap_fits : fs.blocksPerGroup ≤ 8 * fs.blockSize

/-- Block numbers have 48 bits as well, so that they fit in an extent. -/
structure BlocksFit : Prop extends fs.DescsFit where
  last_block : fs.firstDataBlock + fs.groupsCount * fs.blocksPerGroup ≤ 2 ^ 48

variable {fs} in
theorem WellFormed.blocksFit (hw : fs.WellFormed) : fs.BlocksFit :=
  ⟨⟨hw.desc_size, hw.desc_fits, hw.bitmap_fits⟩, hw.last_block⟩

/-! ## Tables -/

variable (d : ℕ → Mem)

def descOf (g : ℕ) : Mem := (d (fs.descBlock g)).slice (fs.descOffset g) groupDescBytes

/-- The locations in the descriptor of a group. -/
def blockBitmapOf (g : ℕ) : ℕ := fs.getBlockBitmap (descLocations (fs.descOffset g) (d (fs.descBlock g)))

def inodeBitmapOf (g : ℕ) : ℕ := fs.getInodeBitmap (descLocations (fs.descOffset g) (d (fs.descBlock g)))

def inodeTableOf (g : ℕ) : ℕ := fs.getInodeTable (descLocations (fs.descOffset g) (d (fs.descBlock g)))

def inodePlace (ino : ℕ) : ℕ := fs.inodeTableOf d (fs.inodeGroup ino) + fs.inodeBlock ino

def inodeOf (ino : ℕ) : Mem := (d (fs.inodePlace d ino)).slice (fs.inodeOffset ino) inodeBytes

def blockAt (g i : ℕ) : ℕ := g * fs.blocksPerGroup + i + fs.firstDataBlock

/-! ## Mapped blocks -/

/-- The block for `logical` below a node of the given depth; zero when there is none. -/
def lookupNode (logical : ℕ) : ℕ → Mem → ℕ → ℕ
  | 0, m, a => (findExtent m a logical).getD 0
  | depth + 1, m, a =>
    match findIndex m a logical with
    | none => 0
    | some b => lookupNode logical depth ((d b).slice 0 fs.blockSize) 0

/-- The block for `logical` of a file; zero when there is none. -/
def mapOf (inode : Mem) (logical : ℕ) : ℕ :=
  if usesExtents inode then fs.lookupNode d logical (ehDepth inode iBlock) inode iBlock else 0

/-- The node that entry `k` of the index node at `a` points to. -/
def childOf (m : Mem) (a k : ℕ) : Mem := (d (eiLeaf m (entryAt a k))).slice 0 fs.blockSize

/-- The nodes below a node of the given depth have the magic number and their depth. -/
def NodesOk : ℕ → Mem → ℕ → Prop
  | 0, _, _ => True
  | depth + 1, m, a => ∀ k < ehEntries m a, ehMagic (fs.childOf d m a k) 0 = extentMagic ∧
      ehDepth (fs.childOf d m a k) 0 = depth ∧ NodesOk depth (fs.childOf d m a k) 0

variable (use : ℕ → BlockUse)

/-- The tree of file `ino` below a node of the given depth. -/
def TreeOk (ino : ℕ) : ℕ → Mem → ℕ → Prop
  | 0, m, a => ∀ k < ehEntries m a,
      eeBlock m (entryAt a k) + eeLen m (entryAt a k) < 2 ^ 32 ∧
      ∀ l, eeBlock m (entryAt a k) ≤ l → l < eeBlock m (entryAt a k) + eeLen m (entryAt a k) →
        use (eeStart m (entryAt a k) + (l - eeBlock m (entryAt a k))) = .data ino l
  | depth + 1, m, a => ∀ k < ehEntries m a, ∃ node,
      node = (d (eiLeaf m (entryAt a k))).slice 0 fs.blockSize ∧
      use (eiLeaf m (entryAt a k)) = .tree ino ∧ ehMagic node 0 = extentMagic ∧
      ehDepth node 0 = depth ∧ TreeOk ino depth node 0

/-- An inode with extents has a well-formed tree; four entries fit in the inode itself. -/
structure InodeOk (ino : ℕ) (inode : Mem) : Prop where
  short : inode.slice 0 inodeBytes = inode
  magic : usesExtents inode = true → ehMagic inode iBlock = extentMagic
  tree : usesExtents inode = true → fs.TreeOk d use ino (ehDepth inode iBlock) inode iBlock
  entries : usesExtents inode = true → ehEntries inode iBlock ≤ 4 ∧ ehMax inode iBlock ≤ 4

/-- **A consistent volume**: the bitmap marks every block that has a use, and each block has one. -/
structure Consistent (live : ℕ → Prop) : Prop where
  zero : use 0 = .super
  desc : ∀ g < fs.groupsCount, use (fs.descBlock g) = .desc (g / (fs.blockSize / fs.groupDescSize))
  blockBitmap : ∀ g < fs.groupsCount, use (fs.blockBitmapOf d g) = .blockBitmap g
  inodeBitmap : ∀ g < fs.groupsCount, use (fs.inodeBitmapOf d g) = .inodeBitmap g
  inodeTable : ∀ ino, 0 < ino → fs.inodeGroup ino < fs.groupsCount →
    use (fs.inodePlace d ino) = .inodeTable (fs.inodeGroup ino) (fs.inodeBlock ino)
  marked : ∀ g < fs.groupsCount, ∀ i < fs.blocksPerGroup, use (fs.blockAt g i) ≠ .free →
    (d (fs.blockBitmapOf d g)).bit i = true
  live_pos : ∀ ino, live ino → 0 < ino ∧ fs.inodeGroup ino < fs.groupsCount
  inodes : ∀ ino, live ino → fs.InodeOk d use ino (fs.inodeOf d ino)

/-! ## The methods that read -/

variable {fs d use}

theorem location_slice (m : Mem) (a : ℕ) {lo hi : ℕ} (hlo : lo + 4 ≤ 12) (hhi : 32 ≤ hi)
    (hhi' : hi + 4 ≤ 44) :
    fs.location (m.slice a groupDescBytes) lo hi = fs.location (descLocations a m) lo hi := by
  have h : ∀ x, (x < 12 ∨ 32 ≤ x ∧ x < 44) → m.slice a groupDescBytes x = descLocations a m x := by
    intro x hx
    rw [Mem.slice_apply (by simp only [groupDescBytes]; omega), descLocations, if_pos hx]
  have hread : ∀ b, (b + 4 ≤ 12 ∨ 32 ≤ b ∧ b + 4 ≤ 44) →
      (m.slice a groupDescBytes).readLE b 4 = (descLocations a m).readLE b 4 :=
    fun b hb => Mem.readLE_congr fun i hi => h _ (by omega)
  rw [location, location, hread lo (.inl hlo), hread hi (.inr ⟨hhi, hhi'⟩)]

variable {s : Ext4Store}

@[simp]
theorem exec_readBlock (b : ℕ) :
    (fs.readBlock b).exec s = some ((s.disk b).slice 0 fs.blockSize, s) := rfl

@[simp]
theorem exec_readInode (ino : ℕ) : (fs.readInode ino).exec s = some (fs.inodeOf s.disk ino, s) := rfl

theorem exec_openNode (isDir : Bool) (ino : ℕ) : (fs.openNode isDir ino).exec s =
      some (⟨isDir, ino, fs.inodeOf s.disk ino, inodeSizeOf (fs.inodeOf s.disk ino)⟩, s) := rfl

theorem exec_writeInode (ino : ℕ) (inode : Mem) :
    (fs.writeInode ino inode).exec s = some ((), s.put (fs.inodePlace s.disk ino)
      (((s.disk (fs.inodePlace s.disk ino)).slice 0 fs.blockSize).copy (fs.inodeOffset ino) inodeBytes
        inode)) := rfl

/-! ## Lookup -/

variable {n i a depth ino : ℕ} {p q : ℕ → Bool} {m inode : Mem} {d' : ℕ → Mem} {use' : ℕ → BlockUse}

theorem firstBelow_eq_some (h : firstBelow n p = some i) : i < n ∧ p i = true :=
  ⟨mem_range.mp (mem_of_find?_eq_some h), find?_some h⟩

theorem firstBelow_eq_none (h : firstBelow n p = none) (hi : i < n) : p i = false := by
  have := find?_eq_none.mp h i (mem_range.mpr hi)
  simpa using this

theorem firstBelow_succ (n : ℕ) (p : ℕ → Bool) :
    firstBelow (n + 1) p = (firstBelow n p).or (if p n then some n else none) := by
  rw [firstBelow, range_succ, find?_append, firstBelow, find?_singleton]

theorem firstBelow_congr (h : ∀ i < n, p i = q i) :
    firstBelow n p = firstBelow n q := by
  induction n with
  | zero => rfl
  | succ n ih =>
    rw [firstBelow_succ, firstBelow_succ, ih fun i hi => h i (Nat.lt_succ_of_lt hi),
      h n (Nat.lt_succ_self n)]

variable {ino logical : ℕ}

theorem TreeOk.leaf (h : fs.TreeOk d use ino 0 m a) {p : ℕ}
    (hp : findExtent m a logical = some p) : use p = .data ino logical := by
  obtain ⟨k, hk, rfl⟩ := Option.map_eq_some_iff.mp hp
  obtain ⟨hlt, hcov⟩ := firstBelow_eq_some hk
  obtain ⟨h1, h2⟩ := of_decide_eq_true hcov
  obtain ⟨hend, huse⟩ := h k hlt
  rw [Nat.mod_eq_of_lt hend] at h2
  exact huse logical h1 h2

theorem TreeOk.index (h : fs.TreeOk d use ino (depth + 1) m a) {b : ℕ}
    (hb : findIndex m a logical = some b) :
    use b = .tree ino ∧ ehMagic ((d b).slice 0 fs.blockSize) 0 = extentMagic ∧
      ehDepth ((d b).slice 0 fs.blockSize) 0 = depth ∧
      fs.TreeOk d use ino depth ((d b).slice 0 fs.blockSize) 0 := by
  obtain ⟨k, hk, rfl⟩ := Option.map_eq_some_iff.mp hb
  obtain ⟨node, rfl, htree⟩ := h k (firstBelow_eq_some hk).1
  exact htree

theorem TreeOk.nodesOk (h : fs.TreeOk d use ino depth m a) : fs.NodesOk d depth m a := by
  induction depth generalizing m a with
  | zero => trivial
  | succ depth ih =>
    intro k hk
    obtain ⟨node, rfl, -, hmagic, hdepth, htree⟩ := h k hk
    exact ⟨hmagic, hdepth, ih htree⟩

theorem exec_extentWalk {fuel : ℕ} (hfuel : depth < fuel) (h : fs.NodesOk s.disk depth m a) :
    (fs.extentWalk logical fuel m a depth).exec s =
      some (fs.lookupNode s.disk logical depth m a, s) := by
  induction depth generalizing fuel m a with
  | zero =>
    obtain ⟨fuel, rfl⟩ := Nat.exists_eq_succ_of_ne_zero (Nat.ne_of_gt hfuel)
    rfl
  | succ depth ih =>
    obtain ⟨fuel, rfl⟩ := Nat.exists_eq_succ_of_ne_zero (Nat.ne_of_gt (Nat.zero_lt_of_lt hfuel))
    rw [extentWalk, if_neg (Nat.succ_ne_zero depth), lookupNode]
    cases hi : findIndex m a logical with
    | none => rfl
    | some b =>
      obtain ⟨k, hk, rfl⟩ := Option.map_eq_some_iff.mp hi
      obtain ⟨hmagic, hdepth, hnodes⟩ := h k (firstBelow_eq_some hk).1
      rw [childOf] at hmagic hdepth hnodes
      rw [BlockM.exec_bind, exec_readBlock, Option.bind_some, if_neg (not_not.mpr hmagic), hdepth]
      exact ih (Nat.lt_of_succ_lt_succ hfuel) hnodes

theorem exec_extentGetBlock_of_nodes
    (hmagic : usesExtents inode = true → ehMagic inode iBlock = extentMagic)
    (hnodes : usesExtents inode = true → fs.NodesOk s.disk (ehDepth inode iBlock) inode iBlock) :
    (fs.extentGetBlock inode logical).exec s = some (fs.mapOf s.disk inode logical, s) := by
  unfold extentGetBlock mapOf
  cases hu : usesExtents inode with
  | false => rfl
  | true =>
    have hdepth : ehDepth inode iBlock < 2 ^ 64 :=
      (Mem.readLE_lt inode (iBlock + 6) 2).trans (by norm_num)
    rw [if_neg (by simp), if_neg (not_not.mpr (hmagic hu)), if_pos rfl]
    exact exec_extentWalk hdepth (hnodes hu)

theorem exec_extentGetBlock (h : fs.InodeOk s.disk use ino inode) :
    (fs.extentGetBlock inode logical).exec s = some (fs.mapOf s.disk inode logical, s) :=
  exec_extentGetBlock_of_nodes h.magic fun hu => (h.tree hu).nodesOk

/-- The lookups in an inode end, and read only. -/
def MapReads (fs : Ext4) (s : Ext4Store) (inode : Mem) : Prop :=
  ∀ logical, (fs.extentGetBlock inode logical).exec s = some (fs.mapOf s.disk inode logical, s)

theorem InodeOk.mapReads (h : fs.InodeOk s.disk use ino inode) : fs.MapReads s inode :=
  fun _ => exec_extentGetBlock h

theorem TreeOk.use_lookup (h : fs.TreeOk d use ino depth m a)
    (hne : fs.lookupNode d logical depth m a ≠ 0) :
    use (fs.lookupNode d logical depth m a) = .data ino logical := by
  induction depth generalizing m a with
  | zero =>
    rw [lookupNode] at hne ⊢
    cases hp : findExtent m a logical with
    | none => rw [hp] at hne; exact absurd rfl hne
    | some p => exact h.leaf hp
  | succ depth ih =>
    rw [lookupNode] at hne ⊢
    cases hi : findIndex m a logical with
    | none => rw [hi] at hne; exact absurd rfl hne
    | some b =>
      rw [hi] at hne
      exact ih (h.index hi).2.2.2 hne

theorem InodeOk.use_mapOf (h : fs.InodeOk d use ino inode)
    (hne : fs.mapOf d inode logical ≠ 0) : use (fs.mapOf d inode logical) = .data ino logical := by
  unfold mapOf at hne ⊢
  split_ifs at hne ⊢ with hu
  · exact (h.tree hu).use_lookup hne
  · exact absurd rfl hne

/-! ## Frames -/

theorem TreeOk.congr (h : fs.TreeOk d use ino depth m a) (hd : ∀ b, use b = .tree ino → d' b = d b)
    (huse : ∀ b, use b ≠ .free → use' b = use b) :
    fs.TreeOk d' use' ino depth m a ∧
      ∀ logical, fs.lookupNode d' logical depth m a = fs.lookupNode d logical depth m a := by
  induction depth generalizing m a with
  | zero =>
    refine ⟨fun k hk => ⟨(h k hk).1, fun l h1 h2 => ?_⟩, fun _ => rfl⟩
    have hu := (h k hk).2 l h1 h2
    rw [huse _ (by rw [hu]; exact BlockUse.noConfusion), hu]
  | succ depth ih =>
    constructor
    · intro k hk
      obtain ⟨node, rfl, hu, hmagic, hdepth, htree⟩ := h k hk
      refine ⟨_, rfl, ?_, ?_⟩
      · rw [huse _ (by rw [hu]; exact BlockUse.noConfusion), hu]
      · rw [hd _ hu]
        exact ⟨hmagic, hdepth, (ih htree).1⟩
    · intro logical
      rw [lookupNode, lookupNode]
      cases hi : findIndex m a logical with
      | none => rfl
      | some b =>
        obtain ⟨hu, -, -, htree⟩ := h.index hi
        simp only [hd b hu]
        exact (ih htree).2 logical

theorem InodeOk.congr (h : fs.InodeOk d use ino inode) (hd : ∀ b, use b = .tree ino → d' b = d b)
    (huse : ∀ b, use b ≠ .free → use' b = use b) : fs.InodeOk d' use' ino inode :=
  ⟨h.short, h.magic, fun hu => ((h.tree hu).congr hd huse).1, h.entries⟩

theorem InodeOk.mapOf_congr (h : fs.InodeOk d use ino inode)
    (hd : ∀ b, use b = .tree ino → d' b = d b) : fs.mapOf d' inode logical = fs.mapOf d inode logical := by
  unfold mapOf
  split_ifs with hu
  · exact ((h.tree hu).congr hd fun _ _ => rfl).2 logical
  · rfl

/-! ## The node in an inode -/

section Node

variable {m m' : Mem}

def SameNode (m m' : Mem) : Prop := ∀ x, iFlags ≤ x → x < 100 → m' x = m x

variable {x k : ℕ}

theorem SameNode.readLE_eq (h : SameNode m m') (h1 : iFlags ≤ x) (h2 : x + n ≤ 100) :
    m'.readLE x n = m.readLE x n :=
  Mem.readLE_congr fun i hi => h _ (by omega) (by omega)

theorem SameNode.entry (h : SameNode m m') (hk : k < 4) (hx : x + n ≤ 12) :
    m'.readLE (entryAt iBlock k + x) n = m.readLE (entryAt iBlock k + x) n := by
  refine h.readLE_eq ?_ ?_
  · simp only [entryAt, iBlock, iFlags]
    omega
  · simp only [entryAt, iBlock]
    omega

theorem SameNode.usesExtents_eq (h : SameNode m m') : usesExtents m' = usesExtents m := by
  rw [usesExtents, h.readLE_eq le_rfl (by norm_num), usesExtents]

theorem SameNode.header (h : SameNode m m') :
    ehMagic m' iBlock = ehMagic m iBlock ∧ ehEntries m' iBlock = ehEntries m iBlock ∧
      ehMax m' iBlock = ehMax m iBlock ∧ ehDepth m' iBlock = ehDepth m iBlock :=
  ⟨h.readLE_eq (by norm_num) (by norm_num), h.readLE_eq (by norm_num) (by norm_num),
    h.readLE_eq (by norm_num) (by norm_num), h.readLE_eq (by norm_num) (by norm_num)⟩

theorem SameNode.extent (h : SameNode m m') (hk : k < 4) :
    eeBlock m' (entryAt iBlock k) = eeBlock m (entryAt iBlock k) ∧
      eeLen m' (entryAt iBlock k) = eeLen m (entryAt iBlock k) ∧
      eeStart m' (entryAt iBlock k) = eeStart m (entryAt iBlock k) := by
  refine ⟨h.entry hk (x := 0) (by norm_num), h.entry hk (by norm_num), ?_⟩
  rw [eeStart, h.entry hk (by norm_num), h.entry hk (by norm_num), eeStart]

theorem SameNode.index (h : SameNode m m') (hk : k < 4) :
    eiBlock m' (entryAt iBlock k) = eiBlock m (entryAt iBlock k) ∧
      eiLeaf m' (entryAt iBlock k) = eiLeaf m (entryAt iBlock k) := by
  refine ⟨h.entry hk (x := 0) (by norm_num), ?_⟩
  rw [eiLeaf, h.entry hk (by norm_num), h.entry hk (by norm_num), eiLeaf]

theorem firstBelow_map_congr {f g : ℕ → ℕ} (hp : ∀ k < n, p k = q k)
    (hf : ∀ k < n, f k = g k) : (firstBelow n p).map f = (firstBelow n q).map g := by
  rw [firstBelow_congr hp]
  cases hk : firstBelow n q with
  | none => rfl
  | some k => exact congrArg some (hf k (firstBelow_eq_some hk).1)

theorem SameNode.findExtent_eq (h : SameNode m m') (he : ehEntries m iBlock ≤ 4) (l : ℕ) :
    findExtent m' iBlock l = findExtent m iBlock l := by
  rw [findExtent, h.header.2.1, findExtent]
  refine firstBelow_map_congr (fun k hk => ?_) fun k hk => ?_
  · obtain ⟨h1, h2, -⟩ := h.extent (lt_of_lt_of_le hk he)
    rw [h1, h2]
  · obtain ⟨h1, -, h3⟩ := h.extent (lt_of_lt_of_le hk he)
    rw [h1, h3]

theorem SameNode.findIndex_eq (h : SameNode m m') (he : ehEntries m iBlock ≤ 4) (l : ℕ) :
    findIndex m' iBlock l = findIndex m iBlock l := by
  rw [findIndex, h.header.2.1, findIndex]
  refine firstBelow_map_congr (fun k hk => ?_) fun k hk => (h.index (lt_of_lt_of_le hk he)).2
  rw [(h.index (lt_of_lt_of_le hk he)).1]
  by_cases hnext : k + 1 < ehEntries m iBlock
  · rw [if_pos hnext, if_pos hnext, (h.index (lt_of_lt_of_le hnext he)).1]
  · rw [if_neg hnext, if_neg hnext]

theorem SameNode.mapOf_eq (h : SameNode m m') (he : usesExtents m = true → ehEntries m iBlock ≤ 4)
    (l : ℕ) : fs.mapOf d m' l = fs.mapOf d m l := by
  rw [mapOf, h.usesExtents_eq, mapOf]
  split_ifs with hu
  · rw [h.header.2.2.2]
    cases ehDepth m iBlock with
    | zero => rw [lookupNode, h.findExtent_eq (he hu), lookupNode]
    | succ depth => rw [lookupNode, h.findIndex_eq (he hu), lookupNode]
  · rfl

theorem TreeOk.sameNode (hok : fs.TreeOk d use ino depth m iBlock)
    (he : ehEntries m iBlock ≤ 4) (h : SameNode m m') : fs.TreeOk d use ino depth m' iBlock := by
  cases depth with
  | zero =>
    intro k hk
    rw [h.header.2.1] at hk
    obtain ⟨h1, h2, h3⟩ := h.extent (lt_of_lt_of_le hk he)
    rw [h1, h2, h3]
    exact hok k hk
  | succ depth =>
    intro k hk
    rw [h.header.2.1] at hk
    rw [(h.index (lt_of_lt_of_le hk he)).2]
    exact hok k hk

theorem InodeOk.sameNode (hok : fs.InodeOk d use ino m) (h : SameNode m m')
    (hshort : m'.slice 0 inodeBytes = m') : fs.InodeOk d use ino m' := by
  obtain ⟨h1, h2, h3, h4⟩ := h.header
  refine ⟨hshort, fun hu => ?_, fun hu => ?_, fun hu => ?_⟩
  · rw [h1]
    exact hok.magic (h.usesExtents_eq ▸ hu)
  · have hu' := h.usesExtents_eq ▸ hu
    rw [h4]
    exact (hok.tree hu').sameNode (hok.entries hu').1 h
  · rw [h2, h3]
    exact hok.entries (h.usesExtents_eq ▸ hu)

end Node

/-! ## A small volume -/

/-- One group of 64 blocks of 1 KB and 16 inodes. -/
def small : Ext4 where
  blockSize := 1024
  inodeSize := 256
  inodesPerGroup := 16
  blocksPerGroup := 64
  groupDescSize := 64
  groupsCount := 1
  firstDataBlock := 1
  is64 := true

def smallJournalInode : Mem := addExtent (newInode 0x8180 1 6144 none) 0 6 11

/-- A volume with the root directory (2), a file `f` (12), an empty file (13) and a journal (8). -/
def smallDisk : ℕ → Mem
  | 2 => ((((Mem.writeLE (fun _ => 0) 0 4 3).writeLE 4 4 4).writeLE 8 4 5).writeLE bgFreeBlocksCount 2
      48).writeLE bgFreeInodesCount 2 3
  | 3 => fun x => if x < 2 then 0xFF else 0
  | 4 => fun x => if x = 0 then 0xFF else if x = 1 then 0x1F else 0
  | 5 => Mem.copy (fun _ => 0) 256 inodeBytes (newInode 0x41ED 2 1024 (some 9))
  | 6 => Mem.copy (fun _ => 0) 768 inodeBytes smallJournalInode
  | 7 => Mem.copy (fun _ => 0) 768 inodeBytes (newInode 0x81A4 1 1024 (some 10))
  | 8 => Mem.copy (fun _ => 0) 0 inodeBytes (newInode 0x81A4 1 0 none)
  | 9 => insertEntry (newDirBlock 1024 2 2) 12 12 ftRegFile [0x66]
  | _ => fun _ => 0

def smallUse (b : ℕ) : BlockUse :=
  if b < 2 then .super
  else if b = 2 then .desc 0
  else if b = 3 then .blockBitmap 0
  else if b = 4 then .inodeBitmap 0
  else if b < 9 then .inodeTable 0 (b - 5)
  else if b = 9 then .data 2 0
  else if b = 10 then .data 12 0
  else if b < 17 then .data 8 (b - 11)
  else .free

def smallLive (ino : ℕ) : Prop := ino ∈ [2, 8, 12, 13]

theorem small_wellFormed : small.WellFormed := by
  constructor <;> decide

theorem TreeOk.of_blocks {fs : Ext4} {d : ℕ → Mem} {use : ℕ → BlockUse}
    (h : ∀ k < ehEntries m a, eeBlock m (entryAt a k) + eeLen m (entryAt a k) < 2 ^ 32 ∧
      ∀ i < eeLen m (entryAt a k),
        use (eeStart m (entryAt a k) + i) = .data ino (eeBlock m (entryAt a k) + i)) :
    fs.TreeOk d use ino 0 m a := by
  refine fun k hk => ⟨(h k hk).1, fun l h1 h2 => ?_⟩
  rw [(h k hk).2 _ (by omega), Nat.add_sub_cancel' h1]

theorem small_inodeOk (h : smallLive ino) :
    small.InodeOk smallDisk smallUse ino (small.inodeOf smallDisk ino) := by
  have hall : ∀ ino ∈ [2, 8, 12, 13], ehMagic (small.inodeOf smallDisk ino) iBlock = extentMagic ∧
      ehDepth (small.inodeOf smallDisk ino) iBlock = 0 ∧
      ehEntries (small.inodeOf smallDisk ino) iBlock ≤ 4 ∧
      ehMax (small.inodeOf smallDisk ino) iBlock ≤ 4 ∧
      ∀ k < ehEntries (small.inodeOf smallDisk ino) iBlock,
        eeBlock (small.inodeOf smallDisk ino) (entryAt iBlock k) +
          eeLen (small.inodeOf smallDisk ino) (entryAt iBlock k) < 2 ^ 32 ∧
        ∀ i < eeLen (small.inodeOf smallDisk ino) (entryAt iBlock k),
          smallUse (eeStart (small.inodeOf smallDisk ino) (entryAt iBlock k) + i) =
            .data ino (eeBlock (small.inodeOf smallDisk ino) (entryAt iBlock k) + i) := by
    decide +kernel
  obtain ⟨hmagic, hdepth, hentries, hmax, htree⟩ := hall ino h
  refine ⟨Mem.slice_slice_zero, fun _ => hmagic, fun _ => ?_, fun _ => ⟨hentries, hmax⟩⟩
  rw [hdepth]
  exact .of_blocks htree

theorem small_consistent : small.Consistent smallDisk smallUse smallLive := by
  have hgroup : ∀ ino, 0 < ino → small.inodeGroup ino < small.groupsCount → ino < 17 := by
    intro ino _ h
    simp only [inodeGroup, small] at h
    omega
  refine ⟨rfl, by decide +kernel, by decide +kernel, by decide +kernel, fun ino h0 hg => ?_,
    by decide +kernel, fun ino h => ?_, fun ino h => small_inodeOk h⟩
  · have hall : ∀ ino < 17, 0 < ino → smallUse (small.inodePlace smallDisk ino) =
        .inodeTable (small.inodeGroup ino) (small.inodeBlock ino) := by decide +kernel
    exact hall ino (hgroup ino h0 hg) h0
  · have hall : ∀ ino ∈ [2, 8, 12, 13], 0 < ino ∧ small.inodeGroup ino < small.groupsCount := by decide
    exact hall ino h

end Ext4

end KeonOS
