import KeonOS.Ext4.Layout

/-!
# The allocator of the ext4 driver

An allocation sets one bit of a bitmap and counts in the descriptor of its group; the locations in the
descriptors stay.

* **`Ext4.exec_allocateBlock`**, `Ext4.exec_freeBlock`, `Ext4.exec_allocateInode`: the calls;
* **`Ext4.Consistent.alloc`**, `Ext4.Consistent.free`: the calls do.
-/

namespace KeonOS

open Function

namespace Ext4

variable {fs : Ext4} {use : ℕ → BlockUse} {live : ℕ → Prop}

/-- Bit `i` of the bitmap at `bm` becomes `value`, and a count of group `g` changes. -/
structure TableStep (fs : Ext4) (bm g i : ℕ) (value : Bool) (d d' : ℕ → Mem) : Prop where
  bit : ∀ j, j / 8 < fs.blockSize → (d' bm).bit j = if j = i then value else (d bm).bit j
  locations : ∀ g' < fs.groupsCount, descLocations (fs.descOffset g') (d' (fs.descBlock g')) =
    descLocations (fs.descOffset g') (d (fs.descBlock g'))
  other : ∀ b, b ≠ bm → b ≠ fs.descBlock g → d' b = d b

/-! ## Arithmetic of the layout -/

theorem DescsFit.descOffset_le (hw : fs.DescsFit) (g : ℕ) :
    fs.descOffset g + groupDescBytes ≤ fs.blockSize := by
  have hpos : 0 < fs.blockSize / fs.groupDescSize := by
    rw [hw.desc_size]
    exact Nat.div_pos hw.desc_fits (by norm_num)
  have hlt := Nat.mod_lt g hpos
  have hmul := Nat.div_mul_le_self fs.blockSize fs.groupDescSize
  calc g % (fs.blockSize / fs.groupDescSize) * fs.groupDescSize + groupDescBytes
      = (g % (fs.blockSize / fs.groupDescSize) + 1) * fs.groupDescSize := by
        rw [hw.desc_size, Nat.add_mul, Nat.one_mul]
    _ ≤ fs.blockSize / fs.groupDescSize * fs.groupDescSize := Nat.mul_le_mul_right _ hlt
    _ ≤ fs.blockSize := hmul

variable {g g' i j a ino b : ℕ} {m gd : Mem} {d d' : ℕ → Mem} {use' : ℕ → BlockUse}

theorem blockAt_inj {i' : ℕ} (hi : i < fs.blocksPerGroup) (hi' : i' < fs.blocksPerGroup)
    (h : fs.blockAt g i = fs.blockAt g' i') : g = g' ∧ i = i' := by
  have hsum : g * fs.blocksPerGroup + i = g' * fs.blocksPerGroup + i' := by
    simp only [blockAt] at h
    omega
  have hpos : 0 < fs.blocksPerGroup := by omega
  have hg : g = g' := by
    have h1 : (g * fs.blocksPerGroup + i) / fs.blocksPerGroup = g := by
      rw [Nat.mul_comm, Nat.mul_add_div hpos, Nat.div_eq_of_lt hi, Nat.add_zero]
    have h2 : (g' * fs.blocksPerGroup + i') / fs.blocksPerGroup = g' := by
      rw [Nat.mul_comm, Nat.mul_add_div hpos, Nat.div_eq_of_lt hi', Nat.add_zero]
    rw [← h1, hsum, h2]
  subst hg
  exact ⟨rfl, by omega⟩

theorem blockAt_div (hi : i < fs.blocksPerGroup) :
    (fs.blockAt g i - fs.firstDataBlock) / fs.blocksPerGroup = g ∧
      (fs.blockAt g i - fs.firstDataBlock) % fs.blocksPerGroup = i := by
  have hpos : 0 < fs.blocksPerGroup := by omega
  rw [blockAt, Nat.add_sub_cancel, Nat.mul_comm]
  exact ⟨by rw [Nat.mul_add_div hpos, Nat.div_eq_of_lt hi, Nat.add_zero],
    by rw [Nat.mul_add_mod, Nat.mod_eq_of_lt hi]⟩

theorem inode_of_bit (g : ℕ) (hi : i < fs.inodesPerGroup) :
    fs.inodeGroup (g * fs.inodesPerGroup + i + 1) = g ∧
      (g * fs.inodesPerGroup + i + 1 - 1) % fs.inodesPerGroup = i := by
  have hpos : 0 < fs.inodesPerGroup := by omega
  rw [inodeGroup, Nat.add_sub_cancel, Nat.mul_comm]
  exact ⟨by rw [Nat.mul_add_div hpos, Nat.div_eq_of_lt hi, Nat.add_zero],
    by rw [Nat.mul_add_mod, Nat.mod_eq_of_lt hi]⟩

theorem DescsFit.bit_in_block (hw : fs.DescsFit) (hi : i < fs.blocksPerGroup) :
    i / 8 < fs.blockSize := by
  have := hw.bitmap_fits
  omega

theorem bit_slice {n : ℕ} (h : j / 8 < n) : (m.slice 0 n).bit j = m.bit j := by
  rw [Mem.bit, Mem.slice_apply h, Nat.zero_add, Mem.bit]

/-! ## Descriptors -/

theorem descLocations_copy (hw : fs.DescsFit)
    (hgd : ∀ i < groupDescBytes, i < 12 ∨ 18 ≤ i → gd i = m (fs.descOffset g + i)) :
    descLocations (fs.descOffset g')
        ((m.slice 0 fs.blockSize).copy (fs.descOffset g) groupDescBytes gd) =
      descLocations (fs.descOffset g') m := by
  funext i
  simp only [descLocations]
  split_ifs with hi
  · have hfit := hw.descOffset_le g'
    have hin : fs.descOffset g' + i < fs.blockSize := by simp only [groupDescBytes] at hfit; omega
    by_cases hx : fs.descOffset g ≤ fs.descOffset g' + i ∧
        fs.descOffset g' + i < fs.descOffset g + groupDescBytes
    · rw [Mem.copy_apply hx.1 hx.2, hgd _ (by omega) ?_]
      · rw [Nat.add_sub_cancel' hx.1]
      -- descriptors start at multiples of 64
      have h1 : fs.descOffset g % 64 = 0 := by
        rw [descOffset, hw.desc_size]
        exact Nat.mul_mod_left _ _
      have h2 : fs.descOffset g' % 64 = 0 := by
        rw [descOffset, hw.desc_size]
        exact Nat.mul_mod_left _ _
      omega
    · rw [Mem.copy_apply_of_notMem (by omega), Mem.slice_apply hin, Nat.zero_add]
  · rfl

variable {s : Ext4Store}

theorem exec_readGroupDesc (g : ℕ) : (fs.readGroupDesc g).exec s = some (fs.descOf s.disk g, s) := rfl

theorem exec_writeGroupDesc (g : ℕ) (gd : Mem) :
    (fs.writeGroupDesc g gd).exec s = some ((), s.put (fs.descBlock g)
      (((s.disk (fs.descBlock g)).slice 0 fs.blockSize).copy (fs.descOffset g) groupDescBytes gd)) :=
  rfl

/-- The volume after bit `i` of the bitmap at `bm` and the descriptor of group `g` were written. -/
def mark (fs : Ext4) (bm g i : ℕ) (value : Bool) (gd : Mem) (s : Ext4Store) : Ext4Store :=
  let s₁ := s.put bm (((s.disk bm).slice 0 fs.blockSize).setBit i value)
  s₁.put (fs.descBlock g)
    (((s₁.disk (fs.descBlock g)).slice 0 fs.blockSize).copy (fs.descOffset g) groupDescBytes gd)

theorem mark_step (hw : fs.DescsFit) {bm : ℕ} {value : Bool}
    (hne : ∀ g' < fs.groupsCount, bm ≠ fs.descBlock g') (hg : g < fs.groupsCount)
    (hgd : ∀ j < groupDescBytes, j < 12 ∨ 18 ≤ j →
      gd j = s.disk (fs.descBlock g) (fs.descOffset g + j)) :
    TableStep fs bm g i value s.disk (fs.mark bm g i value gd s).disk := by
  simp only [mark, Store.put_disk_of_ne (Ne.symm (hne g hg))]
  refine ⟨fun j hj => ?_, fun g' hg' => ?_, fun b hb hbd => ?_⟩
  · rw [Store.put_disk_of_ne (hne g hg), Store.put_disk_self, Mem.bit_setBit, bit_slice hj]
  · rw [Store.put_disk]
    split_ifs with heq
    · rw [descLocations_copy hw hgd, heq]
    · rw [Store.put_disk_of_ne (Ne.symm (hne g' hg'))]
  · rw [Store.put_disk_of_ne hbd, Store.put_disk_of_ne hb]

/-! ## The calls -/

theorem Consistent.bitmap_ne_desc (h : fs.Consistent d use live)
    (hg : g < fs.groupsCount) (hg' : g' < fs.groupsCount) :
    fs.blockBitmapOf d g ≠ fs.descBlock g' := by
  intro heq
  have := h.blockBitmap g hg
  rw [heq, h.desc g' hg'] at this
  cases this

theorem Consistent.inodeBitmap_ne_desc (h : fs.Consistent d use live)
    (hg : g < fs.groupsCount) (hg' : g' < fs.groupsCount) :
    fs.inodeBitmapOf d g ≠ fs.descBlock g' := by
  intro heq
  have := h.inodeBitmap g hg
  rw [heq, h.desc g' hg'] at this
  cases this

theorem getBlockBitmap_slice (d : ℕ → Mem) (g : ℕ) :
    fs.getBlockBitmap ((d (fs.descBlock g)).slice (fs.descOffset g) groupDescBytes) =
      fs.blockBitmapOf d g :=
  location_slice _ _ (by norm_num) (by norm_num) (by norm_num)

theorem getInodeBitmap_slice (d : ℕ → Mem) (g : ℕ) :
    fs.getInodeBitmap ((d (fs.descBlock g)).slice (fs.descOffset g) groupDescBytes) =
      fs.inodeBitmapOf d g :=
  location_slice _ _ (by norm_num) (by norm_num) (by norm_num)

theorem writeLE_desc {p v : ℕ} (hp : 12 ≤ p) (hp' : p + 2 ≤ 18)
    (hgd : ∀ j < groupDescBytes, j < 12 ∨ 18 ≤ j → gd j = m (a + j))
    (hj : j < groupDescBytes) (hj' : j < 12 ∨ 18 ≤ j) : gd.writeLE p 2 v j = m (a + j) := by
  rw [Mem.writeLE_apply_of_notMem (by omega), hgd j hj hj']

theorem slice_desc (hj : j < groupDescBytes) (_ : j < 12 ∨ 18 ≤ j) :
    m.slice a groupDescBytes j = m (a + j) := Mem.slice_apply hj

/-! ### The search -/

/-- The first clear bit in `n` groups from `g` on. A group whose count is zero is passed by. -/
def findBit (fs : Ext4) (d : ℕ → Mem) (count : ℕ) (bitmap : ℕ → ℕ) (per : ℕ) : ℕ → ℕ → Option (ℕ × ℕ)
  | 0, _ => none
  | n + 1, g =>
    if 0 < (fs.descOf d g).readLE count 2 then
      match firstBelow per fun i => !((d (bitmap g)).slice 0 fs.blockSize).bit i with
      | some i => some (g, i)
      | none => findBit fs d count bitmap per n (g + 1)
    else findBit fs d count bitmap per n (g + 1)

section Search

variable {d : ℕ → Mem} {count per n g : ℕ} {bitmap : ℕ → ℕ} (hper : per ≤ 8 * fs.blockSize)
include hper

theorem findBit_eq_some (h : findBit fs d count bitmap per n g = some (g', i)) :
    g ≤ g' ∧ g' < g + n ∧ 0 < (fs.descOf d g').readLE count 2 ∧ i < per ∧
      (d (bitmap g')).bit i = false := by
  induction n generalizing g with
  | zero => cases h
  | succ n ih =>
    rw [findBit] at h
    split_ifs at h with hcount
    · cases hi : firstBelow per fun i => !((d (bitmap g)).slice 0 fs.blockSize).bit i with
      | none =>
        rw [hi] at h
        obtain ⟨h1, h2, h3⟩ := ih h
        exact ⟨by omega, by omega, h3⟩
      | some j =>
        rw [hi] at h
        cases h
        obtain ⟨hj, hbit⟩ := firstBelow_eq_some hi
        rw [bit_slice (by omega), Bool.not_eq_true'] at hbit
        exact ⟨le_refl _, by omega, hcount, hj, hbit⟩
    · obtain ⟨h1, h2, h3⟩ := ih h
      exact ⟨by omega, by omega, h3⟩

theorem findBit_eq_none (h : findBit fs d count bitmap per n g = none) (hg : g ≤ g')
    (hg' : g' < g + n) (hcount : 0 < (fs.descOf d g').readLE count 2) (hi : i < per) :
    (d (bitmap g')).bit i = true := by
  induction n generalizing g with
  | zero => omega
  | succ n ih =>
    rw [findBit] at h
    by_cases heq : g = g'
    · subst heq
      rw [if_pos hcount] at h
      cases hfirst : firstBelow per fun i => !((d (bitmap g)).slice 0 fs.blockSize).bit i with
      | none =>
        have hbit := firstBelow_eq_none hfirst hi
        rwa [bit_slice (by omega), Bool.not_eq_false'] at hbit
      | some j =>
        rw [hfirst] at h
        cases h
    · have hrest : findBit fs d count bitmap per n (g + 1) = none := by
        split_ifs at h
        · cases hfirst : firstBelow per fun i => !((d (bitmap g)).slice 0 fs.blockSize).bit i with
          | none => rwa [hfirst] at h
          | some j => rw [hfirst] at h; cases h
        · exact h
      exact ih hrest (by omega) (by omega)

end Search

/-- The volume after `allocate_block` has taken block `i` of group `g`. -/
def takeBlock (fs : Ext4) (g i : ℕ) (s : Ext4Store) : Ext4Store :=
  (fs.mark (fs.blockBitmapOf s.disk g) g i true ((fs.descOf s.disk g).writeLE bgFreeBlocksCount 2
    ((fs.descOf s.disk g).readLE bgFreeBlocksCount 2 - 1)) s).emit (.allocBlock (fs.blockAt g i))

/-- The descriptor with one inode less, and for a directory one directory more. -/
def descTaken (isDirectory : Bool) (gd : Mem) : Mem :=
  let gd₁ := gd.writeLE bgFreeInodesCount 2 (gd.readLE bgFreeInodesCount 2 - 1)
  if isDirectory then gd₁.writeLE bgUsedDirsCount 2 (gd.readLE bgUsedDirsCount 2 + 1) else gd₁

/-- The volume after `allocate_inode` has taken inode `i` of group `g`. -/
def takeInode (fs : Ext4) (isDirectory : Bool) (g i : ℕ) (s : Ext4Store) : Ext4Store :=
  (fs.mark (fs.inodeBitmapOf s.disk g) g i true (descTaken isDirectory (fs.descOf s.disk g)) s).emit
    (.allocInode (g * fs.inodesPerGroup + i + 1))

theorem exec_allocateBlockFrom (n g : ℕ) : (fs.allocateBlockFrom n g).exec s =
    match findBit fs s.disk bgFreeBlocksCount (fs.blockBitmapOf s.disk) fs.blocksPerGroup n g with
    | none => some (0, s)
    | some (g', i) => some (fs.blockAt g' i, fs.takeBlock g' i s) := by
  induction n generalizing g with
  | zero => rfl
  | succ n ih =>
    rw [findBit, allocateBlockFrom, BlockM.exec_bind, exec_readGroupDesc, Option.bind_some]
    by_cases hcount : 0 < (fs.descOf s.disk g).readLE bgFreeBlocksCount 2
    · rw [if_pos hcount, if_pos hcount, BlockM.exec_bind, exec_readBlock, Option.bind_some, descOf,
        getBlockBitmap_slice]
      cases hi : firstBelow fs.blocksPerGroup fun i =>
        !((s.disk (fs.blockBitmapOf s.disk g)).slice 0 fs.blockSize).bit i with
      | none => exact ih (g + 1)
      | some i => rfl
    · rw [if_neg hcount, if_neg hcount]
      exact ih (g + 1)

theorem exec_allocateBlock (hw : fs.DescsFit) (h : fs.Consistent s.disk use live) :
    fs.allocateBlock.exec s = some (0, s) ∨
    ∃ g i s', g < fs.groupsCount ∧ i < fs.blocksPerGroup ∧ use (fs.blockAt g i) = .free ∧
      fs.allocateBlock.exec s = some (fs.blockAt g i, s') ∧
      TableStep fs (fs.blockBitmapOf s.disk g) g i true s.disk s'.disk ∧
      s'.events = .allocBlock (fs.blockAt g i) :: s.events := by
  rw [allocateBlock, exec_allocateBlockFrom]
  cases hfind : findBit fs s.disk bgFreeBlocksCount (fs.blockBitmapOf s.disk) fs.blocksPerGroup
    fs.groupsCount 0 with
  | none => exact .inl rfl
  | some r =>
    obtain ⟨g, i⟩ := r
    obtain ⟨-, hg, -, hi, hbit⟩ := findBit_eq_some hw.bitmap_fits hfind
    rw [Nat.zero_add] at hg
    refine .inr ⟨g, i, _, hg, hi, ?_, rfl, ?_, rfl⟩
    · by_contra hne
      have := h.marked g hg i hi hne
      rw [hbit] at this
      cases this
    · exact mark_step hw (fun g' hg' => h.bitmap_ne_desc hg hg') hg fun j hj hj' =>
        writeLE_desc (by norm_num) (by norm_num) (fun _ => slice_desc) hj hj'

theorem exec_freeBlock (hw : fs.DescsFit) (h : fs.Consistent s.disk use live)
    (hg : g < fs.groupsCount) (hi : i < fs.blocksPerGroup) :
    ∃ s', (fs.freeBlock (fs.blockAt g i)).exec s = some ((), s') ∧
      TableStep fs (fs.blockBitmapOf s.disk g) g i false s.disk s'.disk ∧
      s'.events = .freeBlock (fs.blockAt g i) :: s.events := by
  have hne := fun g' (hg' : g' < fs.groupsCount) => h.bitmap_ne_desc hg hg'
  simp only [freeBlock, blockAt_div hi]
  refine ⟨_, rfl, mark_step hw hne hg fun j hj hj' =>
    writeLE_desc (by norm_num) (by norm_num) (fun j hj hj' => ?_) hj hj', rfl⟩
  change Mem.slice ((s.put (fs.blockBitmapOf s.disk g) _).disk (fs.descBlock g)) _ _ j = _
  rw [Store.put_disk_of_ne (Ne.symm (hne g hg)), slice_desc hj hj']

theorem exec_allocateInodeFrom (isDirectory : Bool) (n g : ℕ) :
    (fs.allocateInodeFrom isDirectory n g).exec s =
    match findBit fs s.disk bgFreeInodesCount (fs.inodeBitmapOf s.disk) fs.inodesPerGroup n g with
    | none => some (0, s)
    | some (g', i) => some (g' * fs.inodesPerGroup + i + 1, fs.takeInode isDirectory g' i s) := by
  induction n generalizing g with
  | zero => rfl
  | succ n ih =>
    rw [findBit, allocateInodeFrom, BlockM.exec_bind, exec_readGroupDesc, Option.bind_some]
    by_cases hcount : 0 < (fs.descOf s.disk g).readLE bgFreeInodesCount 2
    · rw [if_pos hcount, if_pos hcount, BlockM.exec_bind, exec_readBlock, Option.bind_some, descOf,
        getInodeBitmap_slice]
      cases hi : firstBelow fs.inodesPerGroup fun i =>
        !((s.disk (fs.inodeBitmapOf s.disk g)).slice 0 fs.blockSize).bit i with
      | none => exact ih (g + 1)
      | some i => rfl
    · rw [if_neg hcount, if_neg hcount]
      exact ih (g + 1)

theorem descTaken_apply (isDirectory : Bool) (hj : j < groupDescBytes)
    (hj' : j < 12 ∨ 18 ≤ j) : descTaken isDirectory (m.slice a groupDescBytes) j = m (a + j) := by
  have hcount := fun v j => writeLE_desc (j := j) (v := v) (p := bgFreeInodesCount)
    (by norm_num) (by norm_num) fun _ => slice_desc (m := m) (a := a)
  cases isDirectory
  · exact hcount _ j hj hj'
  · exact writeLE_desc (by norm_num) (by norm_num) (hcount _) hj hj'

theorem exec_allocateInode (hw : fs.WellFormed) (h : fs.Consistent s.disk use live)
    (isDirectory : Bool) :
    (fs.allocateInode isDirectory).exec s = some (0, s) ∨
    ∃ g i s', g < fs.groupsCount ∧ i < fs.inodesPerGroup ∧
      (s.disk (fs.inodeBitmapOf s.disk g)).bit i = false ∧
      (fs.allocateInode isDirectory).exec s = some (g * fs.inodesPerGroup + i + 1, s') ∧
      TableStep fs (fs.inodeBitmapOf s.disk g) g i true s.disk s'.disk ∧
      s'.events = .allocInode (g * fs.inodesPerGroup + i + 1) :: s.events := by
  rw [allocateInode, exec_allocateInodeFrom]
  cases hfind : findBit fs s.disk bgFreeInodesCount (fs.inodeBitmapOf s.disk) fs.inodesPerGroup
    fs.groupsCount 0 with
  | none => exact .inl rfl
  | some r =>
    obtain ⟨g, i⟩ := r
    obtain ⟨-, hg, -, hi, hbit⟩ := findBit_eq_some hw.inode_bitmap_fits hfind
    rw [Nat.zero_add] at hg
    exact .inr ⟨g, i, _, hg, hi, hbit, rfl, mark_step hw.blocksFit.toDescsFit
      (fun g' hg' => h.inodeBitmap_ne_desc hg hg') hg fun j => descTaken_apply isDirectory, rfl⟩

/-! ## Events -/

def Held : List Ext4Event → ℕ → Prop
  | [], _ => False
  | .allocBlock c :: t, b => b = c ∨ Held t b
  | .freeBlock c :: t, b => b ≠ c ∧ Held t b
  | .allocInode _ :: t, b => Held t b

/-- No block was allocated while it was held, and no inode twice. -/
def FreshAllocs : List Ext4Event → Prop
  | [] => True
  | .allocBlock b :: t => ¬Held t b ∧ FreshAllocs t
  | .freeBlock _ :: t => FreshAllocs t
  | .allocInode ino :: t => .allocInode ino ∉ t ∧ FreshAllocs t

structure EventsOk (use : ℕ → BlockUse) (events : List Ext4Event) : Prop where
  held : ∀ b, Held events b → use b ≠ .free
  fresh : FreshAllocs events

namespace EventsOk

variable {events : List Ext4Event} {b : ℕ} {u : BlockUse}

theorem alloc (h : EventsOk use events) (hfree : use b = .free) (hu : u ≠ .free) :
    EventsOk (Function.update use b u) (.allocBlock b :: events) := by
  refine ⟨fun c hc => ?_, fun hheld => h.held b hheld hfree, h.fresh⟩
  by_cases hcb : c = b
  · rwa [hcb, update_self]
  · rw [update_of_ne hcb]
    exact h.held c (hc.resolve_left hcb)

theorem giveBack (h : EventsOk use events) (hfree : use b = .free) :
    EventsOk use (.freeBlock b :: .allocBlock b :: events) := by
  refine ⟨fun c hc => h.held c (hc.2.resolve_left hc.1), fun hheld => h.held b hheld hfree, h.fresh⟩

end EventsOk

/-! ## Consistency -/

def SameTables (fs : Ext4) (d d' : ℕ → Mem) : Prop :=
  ∀ g < fs.groupsCount, descLocations (fs.descOffset g) (d' (fs.descBlock g)) =
    descLocations (fs.descOffset g) (d (fs.descBlock g))

namespace SameTables

variable {d d' d'' : ℕ → Mem} {g : ℕ}

theorem refl : SameTables fs d d := fun _ _ => rfl

theorem trans (h : SameTables fs d d') (h' : SameTables fs d' d'') : SameTables fs d d'' :=
  fun g hg => (h' g hg).trans (h g hg)

theorem blockBitmapOf (h : SameTables fs d d') (hg : g < fs.groupsCount) :
    fs.blockBitmapOf d' g = fs.blockBitmapOf d g := by
  rw [Ext4.blockBitmapOf, h g hg, Ext4.blockBitmapOf]

theorem inodeBitmapOf (h : SameTables fs d d') (hg : g < fs.groupsCount) :
    fs.inodeBitmapOf d' g = fs.inodeBitmapOf d g := by
  rw [Ext4.inodeBitmapOf, h g hg, Ext4.inodeBitmapOf]

theorem inodePlace (h : SameTables fs d d') (hg : fs.inodeGroup ino < fs.groupsCount) :
    fs.inodePlace d' ino = fs.inodePlace d ino := by
  rw [Ext4.inodePlace, Ext4.inodeTableOf, h _ hg, Ext4.inodePlace, Ext4.inodeTableOf]

end SameTables

/-- **What keeps a volume consistent**: the tables and trees stay, and the bitmap marks the new uses. -/
theorem Consistent.frame {live' : ℕ → Prop}
    (h : fs.Consistent d use live) (huse : ∀ b, use b ≠ .free → use' b = use b)
    (htab : SameTables fs d d')
    (hmark : ∀ g < fs.groupsCount, ∀ i < fs.blocksPerGroup, use' (fs.blockAt g i) ≠ .free →
      (d' (fs.blockBitmapOf d g)).bit i = true)
    (hlive : ∀ ino, live' ino → 0 < ino ∧ fs.inodeGroup ino < fs.groupsCount)
    (hinodes : ∀ ino, live' ino → fs.InodeOk d' use' ino (fs.inodeOf d' ino)) :
    fs.Consistent d' use' live' := by
  have hkeep : ∀ {b : ℕ} {u : BlockUse}, use b = u → u ≠ .free → use' b = u :=
    fun hb hu => (huse _ (hb ▸ hu)).trans hb
  refine ⟨hkeep h.zero BlockUse.noConfusion, fun g hg => hkeep (h.desc g hg) BlockUse.noConfusion,
    fun g hg => ?_, fun g hg => ?_, fun ino h0 hg => ?_, fun g hg i hi hu => ?_, hlive, hinodes⟩
  · rw [htab.blockBitmapOf hg]
    exact hkeep (h.blockBitmap g hg) BlockUse.noConfusion
  · rw [htab.inodeBitmapOf hg]
    exact hkeep (h.inodeBitmap g hg) BlockUse.noConfusion
  · rw [htab.inodePlace hg]
    exact hkeep (h.inodeTable ino h0 hg) BlockUse.noConfusion
  · rw [htab.blockBitmapOf hg]
    exact hmark g hg i hi hu

theorem Consistent.inodeOf_eq (h : fs.Consistent d use live)
    (htab : SameTables fs d d') (hblk : ∀ b g k, use b = .inodeTable g k → d' b = d b)
    (h0 : 0 < ino) (hg : fs.inodeGroup ino < fs.groupsCount) : fs.inodeOf d' ino = fs.inodeOf d ino := by
  rw [inodeOf, htab.inodePlace hg, hblk _ _ _ (h.inodeTable ino h0 hg), inodeOf]

theorem Consistent.frame_inodes
    (h : fs.Consistent d use live) (huse : ∀ b, use b ≠ .free → use' b = use b)
    (htab : SameTables fs d d')
    (hmark : ∀ g < fs.groupsCount, ∀ i < fs.blocksPerGroup, use' (fs.blockAt g i) ≠ .free →
      (d' (fs.blockBitmapOf d g)).bit i = true)
    (hblk : ∀ b g k, use b = .inodeTable g k → d' b = d b)
    (htree : ∀ b ino, use b = .tree ino → d' b = d b) : fs.Consistent d' use' live := by
  refine h.frame huse htab hmark h.live_pos fun ino hlive => ?_
  obtain ⟨h0, hg⟩ := h.live_pos ino hlive
  rw [h.inodeOf_eq htab hblk h0 hg]
  exact (h.inodes ino hlive).congr (fun b hb => htree b ino hb) huse

theorem Consistent.put (h : fs.Consistent d use live) {v : Mem}
    (hb : use b = .free ∨ ∃ ino l, use b = .data ino l) :
    fs.Consistent (Function.update d b v) use live := by
  have hne : ∀ {c : ℕ} {u : BlockUse}, use c = u → u ≠ .free → (∀ ino l, u ≠ .data ino l) →
      Function.update d b v c = d c := by
    intro c u hc hu hu'
    refine update_of_ne ?_ _ _
    rintro rfl
    rcases hb with hb | ⟨ino, l, hb⟩
    · exact hu (hc.symm.trans hb)
    · exact hu' ino l (hc.symm.trans hb)
  refine h.frame_inodes (fun _ _ => rfl) (fun g hg => ?_) (fun g hg i hi hu => ?_)
    (fun c g k hc => hne hc BlockUse.noConfusion fun _ _ => BlockUse.noConfusion)
    fun c ino hc => hne hc BlockUse.noConfusion fun _ _ => BlockUse.noConfusion
  · rw [hne (h.desc g hg) BlockUse.noConfusion fun _ _ => BlockUse.noConfusion]
  · rw [hne (h.blockBitmap g hg) BlockUse.noConfusion fun _ _ => BlockUse.noConfusion]
    exact h.marked g hg i hi hu

section Table

variable {d d' : ℕ → Mem} {bm g i : ℕ} {value : Bool}

theorem TableStep.of_use (hs : TableStep fs bm g i value d d') (use : ℕ → BlockUse)
    (h1 : use b ≠ use bm) (h2 : use b ≠ use (fs.descBlock g)) : d' b = d b :=
  hs.other b (fun heq => h1 (heq ▸ rfl)) fun heq => h2 (heq ▸ rfl)

theorem Consistent.table (hw : fs.DescsFit) (h : fs.Consistent d use live)
    (hg : g < fs.groupsCount) (hi : i < fs.blocksPerGroup)
    (hs : TableStep fs (fs.blockBitmapOf d g) g i value d d')
    (huse : ∀ b, use b ≠ .free → use' b = use b)
    (hnew : ∀ b, b ≠ fs.blockAt g i → use' b = use b)
    (hval : use' (fs.blockAt g i) ≠ .free → value = true) : fs.Consistent d' use' live := by
  have hbm := h.blockBitmap g hg
  have hdesc := h.desc g hg
  have hsame : ∀ {b : ℕ} {u : BlockUse}, use b = u → u ≠ .blockBitmap g → (∀ k, u ≠ .desc k) →
      d' b = d b := by
    intro b u hb h1 h2
    refine hs.of_use use ?_ ?_
    · rwa [hb, hbm]
    · rw [hb, hdesc]
      exact h2 _
  refine h.frame_inodes huse hs.locations (fun g' hg' i' hi' hu => ?_)
    (fun b g k hb => hsame hb BlockUse.noConfusion fun _ => BlockUse.noConfusion)
    fun b ino hb => hsame hb BlockUse.noConfusion fun _ => BlockUse.noConfusion
  by_cases hblock : fs.blockAt g' i' = fs.blockAt g i
  · obtain ⟨rfl, rfl⟩ := blockAt_inj hi' hi hblock
    rw [hs.bit _ (hw.bit_in_block hi), if_pos rfl]
    exact hval hu
  rw [hnew _ hblock] at hu
  have hmarked := h.marked g' hg' i' hi' hu
  by_cases hgg : g' = g
  · subst hgg
    rwa [hs.bit _ (hw.bit_in_block hi'), if_neg fun hii => hblock (by rw [hii])]
  · rw [hsame (h.blockBitmap g' hg') (fun heq => hgg (BlockUse.blockBitmap.inj heq))
      fun _ => BlockUse.noConfusion]
    exact hmarked

theorem Consistent.alloc (hw : fs.DescsFit) (h : fs.Consistent d use live)
    (hg : g < fs.groupsCount) (hi : i < fs.blocksPerGroup) (hfree : use (fs.blockAt g i) = .free)
    (hs : TableStep fs (fs.blockBitmapOf d g) g i true d d') (u : BlockUse) :
    fs.Consistent d' (Function.update use (fs.blockAt g i) u) live := by
  refine h.table hw hg hi hs (fun b hb => update_of_ne ?_ _ _)
    (fun b hb => update_of_ne hb _ _) fun _ => rfl
  rintro rfl
  exact hb hfree

theorem Consistent.release (hw : fs.DescsFit) (h : fs.Consistent d use live)
    (hg : g < fs.groupsCount) (hi : i < fs.blocksPerGroup) (hfree : use (fs.blockAt g i) = .free)
    (hs : TableStep fs (fs.blockBitmapOf d g) g i value d d') : fs.Consistent d' use live :=
  h.table hw hg hi hs (fun _ _ => rfl) (fun _ _ => rfl) fun hu => absurd hfree hu

theorem Consistent.inodeTable_step (h : fs.Consistent d use live) (hg : g < fs.groupsCount)
    (hs : TableStep fs (fs.inodeBitmapOf d g) g i value d d') : fs.Consistent d' use live := by
  have hbm := h.inodeBitmap g hg
  have hdesc := h.desc g hg
  have hsame : ∀ {b : ℕ} {u : BlockUse}, use b = u → u ≠ .inodeBitmap g → (∀ k, u ≠ .desc k) →
      d' b = d b := by
    intro b u hb h1 h2
    refine hs.of_use use ?_ ?_
    · rwa [hb, hbm]
    · rw [hb, hdesc]
      exact h2 _
  refine h.frame_inodes (fun _ _ => rfl) hs.locations (fun g' hg' i' hi' hu => ?_)
    (fun b g k hb => hsame hb BlockUse.noConfusion fun _ => BlockUse.noConfusion)
    fun b ino hb => hsame hb BlockUse.noConfusion fun _ => BlockUse.noConfusion
  rw [hsame (h.blockBitmap g' hg') BlockUse.noConfusion fun _ => BlockUse.noConfusion]
  exact h.marked g' hg' i' hi' hu

end Table

/-! ## Inodes -/

theorem WellFormed.inodeOffset_le (hw : fs.WellFormed) (ino : ℕ) :
    fs.inodeOffset ino + inodeBytes ≤ fs.blockSize := by
  have hpos : 0 < fs.inodeSize := lt_of_lt_of_le (by norm_num) hw.inode_size
  have hlt := Nat.mod_lt ((ino - 1) % fs.inodesPerGroup) (Nat.div_pos hw.inode_fits hpos)
  calc fs.inodeOffset ino + inodeBytes ≤ fs.inodeOffset ino + fs.inodeSize :=
        Nat.add_le_add_left hw.inode_size _
    _ = ((ino - 1) % fs.inodesPerGroup % (fs.blockSize / fs.inodeSize) + 1) * fs.inodeSize := by
        rw [inodeOffset, Nat.add_mul, Nat.one_mul]
    _ ≤ fs.blockSize / fs.inodeSize * fs.inodeSize := Nat.mul_le_mul_right _ hlt
    _ ≤ fs.blockSize := Nat.div_mul_le_self _ _

theorem WellFormed.inodeOffset_disjoint (hw : fs.WellFormed) (hi : 0 < i) (hj : 0 < j)
    (hne : i ≠ j) (hgroup : fs.inodeGroup i = fs.inodeGroup j) (hblock : fs.inodeBlock i = fs.inodeBlock j) :
    fs.inodeOffset i + inodeBytes ≤ fs.inodeOffset j ∨
      fs.inodeOffset j + inodeBytes ≤ fs.inodeOffset i := by
  have hindex : (i - 1) % fs.inodesPerGroup ≠ (j - 1) % fs.inodesPerGroup := by
    intro heq
    have h1 := Nat.div_add_mod (i - 1) fs.inodesPerGroup
    have h2 := Nat.div_add_mod (j - 1) fs.inodesPerGroup
    simp only [inodeGroup] at hgroup
    rw [heq, hgroup] at h1
    omega
  have hslot : (i - 1) % fs.inodesPerGroup % (fs.blockSize / fs.inodeSize) ≠
      (j - 1) % fs.inodesPerGroup % (fs.blockSize / fs.inodeSize) := by
    intro heq
    have h1 := Nat.div_add_mod ((i - 1) % fs.inodesPerGroup) (fs.blockSize / fs.inodeSize)
    have h2 := Nat.div_add_mod ((j - 1) % fs.inodesPerGroup) (fs.blockSize / fs.inodeSize)
    simp only [inodeBlock] at hblock
    rw [heq, hblock] at h1
    omega
  have hsize := hw.inode_size
  rw [inodeOffset, inodeOffset]
  generalize (i - 1) % fs.inodesPerGroup % (fs.blockSize / fs.inodeSize) = x at hslot
  generalize (j - 1) % fs.inodesPerGroup % (fs.blockSize / fs.inodeSize) = y at hslot
  rcases Nat.lt_or_gt_of_ne hslot with hlt | hlt
  · left
    calc x * fs.inodeSize + inodeBytes ≤ (x + 1) * fs.inodeSize := by
          rw [Nat.add_mul, Nat.one_mul]
          omega
      _ ≤ y * fs.inodeSize := Nat.mul_le_mul_right _ hlt
  · right
    calc y * fs.inodeSize + inodeBytes ≤ (y + 1) * fs.inodeSize := by
          rw [Nat.add_mul, Nat.one_mul]
          omega
      _ ≤ x * fs.inodeSize := Nat.mul_le_mul_right _ hlt

section Write

variable {d : ℕ → Mem} {ino : ℕ} {inode : Mem}

def withInode (fs : Ext4) (d : ℕ → Mem) (ino : ℕ) (inode : Mem) : ℕ → Mem :=
  Function.update d (fs.inodePlace d ino)
    (((d (fs.inodePlace d ino)).slice 0 fs.blockSize).copy (fs.inodeOffset ino) inodeBytes inode)

theorem Consistent.withInode_of_use (h : fs.Consistent d use live) (h0 : 0 < ino)
    (hg : fs.inodeGroup ino < fs.groupsCount) (hb : ∀ g k, use b ≠ .inodeTable g k) :
    fs.withInode d ino inode b = d b := by
  refine update_of_ne ?_ _ _
  rintro rfl
  exact hb _ _ (h.inodeTable ino h0 hg)

theorem Consistent.sameTables_withInode (h : fs.Consistent d use live) (h0 : 0 < ino)
    (hg : fs.inodeGroup ino < fs.groupsCount) : SameTables fs d (fs.withInode d ino inode) := by
  intro g hg'
  rw [h.withInode_of_use h0 hg fun _ _ heq => ?_]
  rw [h.desc g hg'] at heq
  cases heq

theorem Consistent.inodeOf_withInode (h : fs.Consistent d use live) (h0 : 0 < ino)
    (hg : fs.inodeGroup ino < fs.groupsCount) :
    fs.inodeOf (fs.withInode d ino inode) ino = inode.slice 0 inodeBytes := by
  rw [inodeOf, (h.sameTables_withInode h0 hg).inodePlace hg, withInode, update_self, Mem.slice_copy]

theorem Consistent.inodeOf_withInode_of_ne (hw : fs.WellFormed) (h : fs.Consistent d use live)
    (h0 : 0 < ino) (hg : fs.inodeGroup ino < fs.groupsCount) (hj : 0 < j)
    (hgj : fs.inodeGroup j < fs.groupsCount) (hne : j ≠ ino) :
    fs.inodeOf (fs.withInode d ino inode) j = fs.inodeOf d j := by
  rw [inodeOf, (h.sameTables_withInode h0 hg).inodePlace hgj, inodeOf]
  by_cases hplace : fs.inodePlace d j = fs.inodePlace d ino
  · have huse := h.inodeTable j hj hgj
    rw [hplace, h.inodeTable ino h0 hg] at huse
    obtain ⟨hgroup, hblock⟩ := BlockUse.inodeTable.inj huse
    rw [hplace, withInode, update_self,
      Mem.slice_copy_of_disjoint (hw.inodeOffset_disjoint hj h0 hne hgroup.symm hblock.symm),
      Mem.slice_slice (by have := hw.inodeOffset_le j; omega), Nat.zero_add]
  · rw [withInode, update_of_ne hplace]

theorem Consistent.write (hw : fs.WellFormed) (h : fs.Consistent d use live) (h0 : 0 < ino)
    (hg : fs.inodeGroup ino < fs.groupsCount) (hok : fs.InodeOk d use ino inode) :
    fs.Consistent (fs.withInode d ino inode) use fun j => live j ∨ j = ino := by
  have htree : ∀ b i, use b = .tree i → fs.withInode d ino inode b = d b := by
    intro b i hb
    refine h.withInode_of_use h0 hg fun _ _ heq => ?_
    rw [hb] at heq
    cases heq
  refine h.frame (fun _ _ => rfl) (h.sameTables_withInode h0 hg) (fun g hg' i hi hu => ?_)
    (fun j hj => ?_) fun j hj => ?_
  · rw [h.withInode_of_use h0 hg fun _ _ heq => ?_]
    · exact h.marked g hg' i hi hu
    · rw [h.blockBitmap g hg'] at heq
      cases heq
  · rcases hj with hj | rfl
    · exact h.live_pos j hj
    · exact ⟨h0, hg⟩
  · by_cases hji : j = ino
    · subst hji
      rw [h.inodeOf_withInode h0 hg, hok.short]
      exact hok.congr (fun b hb => htree b _ hb) fun _ _ => rfl
    · have hlive := hj.resolve_right hji
      obtain ⟨hj0, hgj⟩ := h.live_pos j hlive
      rw [h.inodeOf_withInode_of_ne hw h0 hg hj0 hgj hji]
      exact (h.inodes j hlive).congr (fun b hb => htree b _ hb) fun _ _ => rfl

end Write

end Ext4

end KeonOS
