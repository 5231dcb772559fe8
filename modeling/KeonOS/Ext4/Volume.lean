import KeonOS.Ext4.Directory

/-!
# Volumes with directories

A consistent volume in whose inode bitmap every inode in use is marked, and whose directories are well
formed and name inodes in use. The objects that are open may have an old copy of their inode, but not of
the blocks of a directory.

* **`Ext4.Volume`**: such a volume.
-/

namespace KeonOS

namespace Ext4

/-- Blocks of at most 32 KB, and inode numbers of 32 bits. -/
structure DirsFit (fs : Ext4) : Prop where
  block : fs.blockSize ∣ 2 ^ 15
  inodes : fs.groupsCount * fs.inodesPerGroup < 2 ^ 32

variable (fs : Ext4) (d : ℕ → Mem) (use : ℕ → BlockUse) (live : ℕ → Prop)

def inodeMarked (ino : ℕ) : Prop :=
  (d (fs.inodeBitmapOf d (fs.inodeGroup ino))).bit ((ino - 1) % fs.inodesPerGroup) = true

def entriesOf (ino : ℕ) : List (List UInt8 × ℕ) := fs.dirEntries d (fs.inodeOf d ino)

/-- The directory `ino` is well formed and names inodes in use. -/
structure DirectoryOk (ino : ℕ) : Prop where
  ok : fs.DirOk d (fs.inodeOf d ino)
  live : ∀ x ∈ fs.entriesOf d ino, live x.2

/-- **A volume with directories.** -/
structure Volume : Prop where
  consistent : fs.Consistent d use live
  marked : ∀ ino, live ino → fs.inodeMarked d ino
  dirs : ∀ ino, live ino → isDirectoryMode (fs.inodeOf d ino) = true → fs.DirectoryOk d live ino

/-- The inode `i` and the blocks of its file are as before. -/
structure Untouched (i : ℕ) (d' : ℕ → Mem) : Prop where
  inode : fs.inodeOf d' i = fs.inodeOf d i
  blocks : ∀ b, (use b = .tree i ∨ ∃ l, use b = .data i l) → d' b = d b

variable {fs d use live} {d' d'' : ℕ → Mem} {use' : ℕ → BlockUse} {live' : ℕ → Prop} {i ino : ℕ}

/-! ## Arithmetic -/

theorem WellFormed.blockSize_pos (hw : fs.WellFormed) : 0 < fs.blockSize :=
  lt_of_lt_of_le (by norm_num) hw.desc_fits

theorem DirsFit.four_dvd (hf : fs.DirsFit) (hw : fs.WellFormed) : 4 ∣ fs.blockSize := by
  obtain ⟨k, -, hk⟩ := (Nat.dvd_prime_pow Nat.prime_two).mp hf.block
  have hge : 64 ≤ fs.blockSize := hw.desc_fits
  rw [hk] at hge ⊢
  have hk2 : 2 ≤ k := by
    by_contra hlt
    have hle : 2 ^ k ≤ 2 ^ 1 := Nat.pow_le_pow_right (by norm_num) (by omega)
    omega
  exact pow_dvd_pow 2 hk2

theorem DirsFit.blockSize_lt (hf : fs.DirsFit) : fs.blockSize < 2 ^ 16 :=
  lt_of_le_of_lt (Nat.le_of_dvd (by norm_num) hf.block) (by norm_num)

theorem DirsFit.inode_lt (hf : fs.DirsFit) (hw : fs.WellFormed)
    (hg : fs.inodeGroup ino < fs.groupsCount) : ino < 2 ^ 32 := by
  have hmul := (Nat.div_lt_iff_lt_mul hw.inodes_pos).mp hg
  have := hf.inodes
  omega

/-! ## What stays -/

namespace Untouched

theorem entriesOf (h : fs.Untouched d use i d') (hok : fs.InodeOk d use i (fs.inodeOf d i)) :
    fs.entriesOf d' i = fs.entriesOf d i := by
  rw [Ext4.entriesOf, h.inode, hok.dirEntries_congr h.blocks, Ext4.entriesOf]

end Untouched

/-- **What keeps a volume**: each inode in use is untouched, or it is a file or a directory that is well
formed. -/
theorem Volume.of_untouched (h : fs.Volume d use live) (hcons : fs.Consistent d' use' live')
    (hmark : ∀ i, live' i → fs.inodeMarked d' i) (hlive : ∀ i, live i → live' i)
    (hdirs : ∀ i, live' i → isDirectoryMode (fs.inodeOf d' i) = true →
      live i ∧ fs.Untouched d use i d' ∨ fs.DirectoryOk d' live' i) : fs.Volume d' use' live' := by
  refine ⟨hcons, hmark, fun i hi hdir => ?_⟩
  rcases hdirs i hi hdir with ⟨hold, hsame⟩ | hnew
  · have hok := h.consistent.inodes i hold
    rw [hsame.inode] at hdir
    have hdir' := h.dirs i hold hdir
    refine ⟨?_, fun x hx => hlive _ (hdir'.live x ?_)⟩
    · rw [hsame.inode]
      exact hok.dirOk_congr hsame.blocks hdir'.ok
    · rwa [← hsame.entriesOf hok]
  · exact hnew

/-! ## Marks -/

theorem WellFormed.inodeBit_lt (hw : fs.WellFormed) (k : ℕ) :
    k % fs.inodesPerGroup / 8 < fs.blockSize := by
  have hlt := Nat.mod_lt k hw.inodes_pos
  have hfit := hw.inode_bitmap_fits
  omega

theorem Consistent.inodeMarked_congr (h : fs.Consistent d use live) (hg : fs.inodeGroup i < fs.groupsCount)
    (htab : SameTables fs d d') (hd : ∀ b g, use b = .inodeBitmap g → d' b = d b) :
    fs.inodeMarked d' i ↔ fs.inodeMarked d i := by
  rw [inodeMarked, htab.inodeBitmapOf hg, hd _ _ (h.inodeBitmap _ hg), inodeMarked]

theorem Consistent.inodeMarked_step (hw : fs.WellFormed) (h : fs.Consistent d use live) {g k : ℕ}
    (hg : g < fs.groupsCount) (hk : k < fs.inodesPerGroup)
    (hs : TableStep fs (fs.inodeBitmapOf d g) g k true d d') (hgi : fs.inodeGroup i < fs.groupsCount)
    (h0 : 0 < i) :
    fs.inodeMarked d' i ↔ fs.inodeMarked d i ∨ i = g * fs.inodesPerGroup + k + 1 := by
  have htab : SameTables fs d d' := hs.locations
  rw [inodeMarked, htab.inodeBitmapOf hgi, inodeMarked]
  by_cases hgg : fs.inodeGroup i = g
  · rw [hgg, hs.bit _ (hw.inodeBit_lt _)]
    have hdiv := Nat.div_add_mod (i - 1) fs.inodesPerGroup
    have hnum : (i - 1) % fs.inodesPerGroup = k ↔ i = g * fs.inodesPerGroup + k + 1 := by
      rw [← inodeGroup, hgg, Nat.mul_comm] at hdiv
      constructor <;> omega
    by_cases hi : i = g * fs.inodesPerGroup + k + 1
    · rw [if_pos (hnum.mpr hi)]
      exact ⟨fun _ => .inr hi, fun _ => rfl⟩
    · rw [if_neg (mt hnum.mp hi)]
      exact ⟨.inl, fun hor => hor.resolve_right hi⟩
  · have hsame : d' (fs.inodeBitmapOf d (fs.inodeGroup i)) = d (fs.inodeBitmapOf d (fs.inodeGroup i)) := by
      refine hs.of_use use ?_ ?_
      · rw [h.inodeBitmap _ hgi, h.inodeBitmap _ hg]
        exact fun heq => hgg (BlockUse.inodeBitmap.inj heq)
      · rw [h.inodeBitmap _ hgi, h.desc g hg]
        exact BlockUse.noConfusion
    rw [hsame]
    refine ⟨.inl, fun hor => hor.resolve_right ?_⟩
    rintro rfl
    exact hgg (inode_of_bit g hk).1

theorem Consistent.untouched_table (h : fs.Consistent d use live) {bm g k : ℕ} {value : Bool}
    (hbm : (∃ g, use bm = .blockBitmap g) ∨ ∃ g, use bm = .inodeBitmap g) (hg : g < fs.groupsCount)
    (hs : TableStep fs bm g k value d d') (h0 : 0 < i) (hgi : fs.inodeGroup i < fs.groupsCount) :
    fs.Untouched d use i d' := by
  have hsame : ∀ {b : ℕ} {u : BlockUse}, use b = u → (∀ g, u ≠ .blockBitmap g) →
      (∀ g, u ≠ .inodeBitmap g) → (∀ k, u ≠ .desc k) → d' b = d b := by
    intro b u hb h1 h2 h3
    refine hs.of_use use ?_ ?_
    · rcases hbm with ⟨g', hbm⟩ | ⟨g', hbm⟩
      · rw [hb, hbm]
        exact h1 g'
      · rw [hb, hbm]
        exact h2 g'
    · rw [hb, h.desc g hg]
      exact h3 _
  refine ⟨h.inodeOf_eq hs.locations (fun b g k hb => hsame hb (fun _ => BlockUse.noConfusion)
    (fun _ => BlockUse.noConfusion) fun _ => BlockUse.noConfusion) h0 hgi, fun b hb => ?_⟩
  rcases hb with hb | ⟨l, hb⟩
  · exact hsame hb (fun _ => BlockUse.noConfusion) (fun _ => BlockUse.noConfusion)
      fun _ => BlockUse.noConfusion
  · exact hsame hb (fun _ => BlockUse.noConfusion) (fun _ => BlockUse.noConfusion)
      fun _ => BlockUse.noConfusion

theorem Consistent.untouched_put (h : fs.Consistent d use live) {b j l : ℕ} {v : Mem}
    (hb : use b = .data j l) (hi : 0 < i) (hgi : fs.inodeGroup i < fs.groupsCount) (hne : i ≠ j) :
    fs.Untouched d use i (Function.update d b v) := by
  have hother : ∀ {c : ℕ} {u : BlockUse}, use c = u → u ≠ .data j l → Function.update d b v c = d c := by
    intro c u hc hu
    refine Function.update_of_ne ?_ _ _
    rintro rfl
    exact hu (hc.symm.trans hb)
  have htab : SameTables fs d (Function.update d b v) := by
    intro g hg
    rw [hother (h.desc g hg) BlockUse.noConfusion]
  refine ⟨h.inodeOf_eq htab (fun c g k hc => hother hc BlockUse.noConfusion) hi hgi, fun c hc => ?_⟩
  rcases hc with hc | ⟨x, hc⟩
  · exact hother hc BlockUse.noConfusion
  · exact hother hc fun heq => hne (BlockUse.data.inj heq).1

/-! ## New inodes -/

section NewInode

variable (mode links size : ℕ)

theorem newInode_fields : (newInode mode links size none).readLE iMode 2 = mode % 2 ^ 16 ∧
    (newInode mode links size none).readLE iLinksCount 2 = links % 2 ^ 16 ∧
    (newInode mode links size none).readLE iSizeLo 4 = size % 2 ^ 32 ∧
    (newInode mode links size none).readLE iSizeHigh 4 = 0 := by
  simp only [newInode, iMode, iLinksCount, iSizeLo, iFlags, iBlock, iSizeHigh]
  refine ⟨?_, ?_, ?_, ?_⟩
  all_goals repeat rw [Mem.readLE_writeLE_of_disjoint (by omega)]
  · rw [Mem.readLE_writeLE]
    norm_num
  · rw [Mem.readLE_writeLE]
    norm_num
  · rw [Mem.readLE_writeLE]
    norm_num
  · exact Mem.readLE_of_zero fun _ _ => rfl

theorem newInode_tree : usesExtents (newInode mode links size none) = true ∧
    ehMagic (newInode mode links size none) iBlock = extentMagic ∧
    ehEntries (newInode mode links size none) iBlock = 0 ∧
    ehMax (newInode mode links size none) iBlock = 4 ∧
    ehDepth (newInode mode links size none) iBlock = 0 := by
  have hflags : (newInode mode links size none).readLE iFlags 4 = 0x00080000 := by
    simp only [newInode, iMode, iLinksCount, iSizeLo, iFlags, iBlock]
    rw [Mem.readLE_writeLE_of_disjoint (by omega), Mem.readLE_writeLE_of_disjoint (by omega),
      Mem.readLE_writeLE]
    norm_num
  refine ⟨by rw [usesExtents, hflags]; decide, ?_⟩
  simp only [newInode, ehMagic, ehEntries, ehMax, ehDepth, iMode, iLinksCount, iSizeLo, iFlags, iBlock]
  refine ⟨?_, ?_, ?_, ?_⟩
  all_goals repeat rw [Mem.readLE_writeLE_of_disjoint (by omega)]
  · rw [Mem.readLE_writeLE]
    norm_num
  · exact Mem.readLE_of_zero fun _ _ => rfl
  · rw [Mem.readLE_writeLE]
    norm_num
  · exact Mem.readLE_of_zero fun _ _ => rfl

variable {mode links size}

theorem inodeOk_newInode : fs.InodeOk d use ino (newInode mode links size none) := by
  obtain ⟨-, hmagic, hentries, hmax, hdepth⟩ := newInode_tree mode links size
  refine ⟨?_, fun _ => hmagic, fun _ => ?_, fun _ => ⟨by omega, by omega⟩⟩
  · refine Mem.slice_eq_self_of_eq (m := fun _ => 0) ?_ fun x hx => ?_
    · funext x
      simp [Mem.slice]
    · simp only [newInode, iMode, iLinksCount, iSizeLo, iFlags, iBlock, inodeBytes] at hx ⊢
      rw [Mem.writeLE_apply_of_notMem (by omega), Mem.writeLE_apply_of_notMem (by omega),
        Mem.writeLE_apply_of_notMem (by omega), Mem.writeLE_apply_of_notMem (by omega),
        Mem.writeLE_apply_of_notMem (by omega), Mem.writeLE_apply_of_notMem (by omega)]
  · intro k hk
    omega

theorem mapOf_newInode (l : ℕ) : fs.mapOf d (newInode mode links size none) l = 0 := by
  obtain ⟨hu, -, hentries, -, hdepth⟩ := newInode_tree mode links size
  rw [mapOf_of_depth hu hdepth, findExtent, hentries]
  rfl

theorem newInode_some (b : ℕ) :
    newInode mode links size (some b) = addExtent (newInode mode links size none) 0 1 b := rfl

theorem newInode_some_apply {b x : ℕ} (hx : x < 40 ∨ 100 ≤ x) :
    newInode mode links size (some b) x = newInode mode links size none x := by
  obtain ⟨-, -, hentries, -⟩ := newInode_tree mode links size
  rw [newInode_some]
  exact addExtent_apply (by omega) hx

theorem mapOf_newInode_some {b : ℕ} (hb : b < 2 ^ 48) (l : ℕ) :
    fs.mapOf d (newInode mode links size (some b)) l = if l = 0 then b else 0 := by
  obtain ⟨hu, -, hentries, -, hdepth⟩ := newInode_tree mode links size
  have hhead : ∀ x n, x + n ≤ 42 ∨ 44 ≤ x ∧ x + n ≤ 52 →
      (newInode mode links size (some b)).readLE x n = (newInode mode links size none).readLE x n := by
    intro x n hx
    refine readLE_addExtent ?_
    simp only [entryAt, iBlock]
    omega
  have hnone : findExtent (newInode mode links size none) iBlock 0 = none := by
    rfl
  have hfind : ∀ x, findExtent (newInode mode links size (some b)) iBlock x =
      if x = 0 then some b else findExtent (newInode mode links size none) iBlock x := by
    rw [newInode_some]
    exact findExtent_addExtent (by omega) (by norm_num) hb hnone
  have hmap : fs.mapOf d (newInode mode links size (some b)) l =
      if l = 0 then b else fs.mapOf d (newInode mode links size none) l :=
    mapOf_of_findExtent hu hdepth ((usesExtents_congr (hhead iFlags 4 (by norm_num))).trans hu)
      ((hhead (iBlock + 6) 2 (by norm_num)).trans hdepth) hfind l
  rw [hmap, mapOf_newInode]

theorem inodeOk_newInode_some {b : ℕ} (hb : b < 2 ^ 48) (hfree : use b = .free) :
    fs.InodeOk d (Function.update use b (.data ino 0)) ino (newInode mode links size (some b)) := by
  obtain ⟨hu, -, hentries, hmax, hdepth⟩ := newInode_tree mode links size
  exact inodeOk_newInode.addExtent hu hdepth (by omega) (by norm_num) hb hfree

end NewInode

/-! ## Objects -/

/-- The two inodes are of one directory: they have the same blocks, the same size and the same
type. -/
structure SameDir (m m' : Mem) : Prop where
  node : SameNode m m'
  size : inodeSizeOf m' = inodeSizeOf m
  mode : isDirectoryMode m' = isDirectoryMode m

variable (fs d use live) in
/-- **An object of the volume.** A directory's copy of its inode may have another link count. -/
structure NodeOk (n : Ext4Node) : Prop where
  live : live n.ino
  inode : fs.InodeOk d use n.ino n.inode
  kind : isDirectoryMode (fs.inodeOf d n.ino) = n.isDir
  mode : isDirectoryMode n.inode = n.isDir
  size : n.size = inodeSizeOf n.inode
  dir : n.isDir = true → SameDir (fs.inodeOf d n.ino) n.inode

variable (fs d use live d' use' live') in
/-- What every call keeps of the inodes and of the blocks in use. -/
structure Grows : Prop where
  lives : ∀ i, live i → live' i
  uses : ∀ b, use b ≠ .free → use' b = use b
  trees : ∀ b i, use b = .tree i → d' b = d b
  kinds : ∀ i, live i → isDirectoryMode (fs.inodeOf d' i) = isDirectoryMode (fs.inodeOf d i)
  dirs : ∀ i, live i → isDirectoryMode (fs.inodeOf d i) = true →
    SameDir (fs.inodeOf d i) (fs.inodeOf d' i)

theorem SameDir.refl (m : Mem) : SameDir m m := ⟨fun _ _ _ => rfl, rfl, rfl⟩

theorem SameDir.symm {m m' : Mem} (h : SameDir m m') : SameDir m' m :=
  ⟨fun x h1 h2 => (h.node x h1 h2).symm, h.size.symm, h.mode.symm⟩

theorem SameDir.trans {m m' m'' : Mem} (h : SameDir m m') (h' : SameDir m' m'') : SameDir m m'' :=
  ⟨fun x h1 h2 => (h'.node x h1 h2).trans (h.node x h1 h2), h'.size.trans h.size, h'.mode.trans h.mode⟩

theorem Grows.refl : fs.Grows d use live d use live :=
  ⟨fun _ h => h, fun _ _ => rfl, fun _ _ _ => rfl, fun _ _ => rfl, fun _ _ _ => .refl _⟩

theorem NodeOk.grows {n : Ext4Node} (h : fs.NodeOk d use live n)
    (hg : fs.Grows d use live d' use' live') : fs.NodeOk d' use' live' n := by
  refine ⟨hg.lives _ h.live, h.inode.congr (fun b hb => hg.trees b _ hb) hg.uses, ?_, h.mode, h.size,
    fun hdir => ?_⟩
  · rw [hg.kinds _ h.live, h.kind]
  · exact ((hg.dirs _ h.live (h.kind.trans hdir)).symm).trans (h.dir hdir)

theorem Volume.nodeOk (h : fs.Volume d use live) (hlive : live ino) :
    fs.NodeOk d use live ⟨isDirectoryMode (fs.inodeOf d ino), ino, fs.inodeOf d ino,
      inodeSizeOf (fs.inodeOf d ino)⟩ :=
  ⟨hlive, h.consistent.inodes ino hlive, rfl, rfl, rfl, fun _ => .refl _⟩

section SameDir

variable {m m' : Mem} (h : SameDir m m') (hok : fs.InodeOk d use ino m)
include h hok

theorem SameDir.dirEntries_eq : fs.dirEntries d m' = fs.dirEntries d m :=
  dirEntries_congr h.size (fun l => h.node.mapOf_eq (fun hu => (hok.entries hu).1) l) fun _ _ => rfl

theorem SameDir.dirOk (hdir : fs.DirOk d m) : fs.DirOk d m' :=
  hdir.congr h.size (fun l => h.node.mapOf_eq (fun hu => (hok.entries hu).1) l) fun _ _ => rfl

theorem SameDir.freeSpace_eq (required : ℕ) : fs.freeSpace d m' required = fs.freeSpace d m required :=
  freeSpace_congr h.size (fun l => h.node.mapOf_eq (fun hu => (hok.entries hu).1) l)
    (fun _ _ => rfl) required

end SameDir

section Object

variable {n : Ext4Node} (h : fs.NodeOk d use live n) (hv : fs.Volume d use live) (hdir : n.isDir = true)
include h hv hdir

theorem NodeOk.dirEntries_eq : fs.dirEntries d n.inode = fs.entriesOf d n.ino :=
  (h.dir hdir).dirEntries_eq (hv.consistent.inodes _ h.live)

theorem NodeOk.dirOk : fs.DirOk d n.inode :=
  (h.dir hdir).dirOk (hv.consistent.inodes _ h.live) (hv.dirs _ h.live (h.kind.trans hdir)).ok

theorem NodeOk.freeSpace_eq (required : ℕ) :
    fs.freeSpace d n.inode required = fs.freeSpace d (fs.inodeOf d n.ino) required :=
  (h.dir hdir).freeSpace_eq (hv.consistent.inodes _ h.live) required

end Object

/-! ## Links -/

def addLink (inode : Mem) : Mem := inode.writeLE iLinksCount 2 (inode.readLE iLinksCount 2 + 1)

theorem sameDir_writeLinks (m : Mem) (v : ℕ) : SameDir m (m.writeLE iLinksCount 2 v) := by
  have hread : ∀ {x n : ℕ}, x + n ≤ 26 ∨ 28 ≤ x →
      (m.writeLE iLinksCount 2 v).readLE x n = m.readLE x n :=
    fun h => Mem.readLE_writeLE_of_disjoint h
  refine ⟨fun x h1 _ => Mem.writeLE_apply_of_notMem (.inr (le_trans (by norm_num) h1)), ?_, ?_⟩
  · rw [inodeSizeOf, hread (by norm_num), hread (by norm_num), inodeSizeOf]
  · rw [isDirectoryMode, hread (by norm_num), isDirectoryMode]

theorem sameDir_addLink (m : Mem) : SameDir m (addLink m) := sameDir_writeLinks m _

theorem sameDir_dropLink (m : Mem) : SameDir m (dropLink m) := sameDir_writeLinks m _

theorem InodeOk.writeLinks {m : Mem} (h : fs.InodeOk d use ino m) (v : ℕ) :
    fs.InodeOk d use ino (m.writeLE iLinksCount 2 v) :=
  h.sameNode (sameDir_writeLinks m v).node (Mem.slice_eq_self_of_eq h.short fun x hx =>
    Mem.writeLE_apply_of_notMem (.inr (le_trans (by norm_num) hx)))

/-! ## What was handed out -/

variable (fs d use) in
/-- The blocks that are held are in use, and the inodes that were handed out are marked. -/
structure AllocsOk (events : List Ext4Event) : Prop where
  blocks : EventsOk use events
  range : ∀ k, .allocInode k ∈ events → 0 < k ∧ fs.inodeGroup k < fs.groupsCount
  inodes : ∀ k, .allocInode k ∈ events → fs.inodeMarked d k

end Ext4

end KeonOS
