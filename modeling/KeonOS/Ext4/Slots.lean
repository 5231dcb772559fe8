import KeonOS.Ext4.Alloc

/-!
# Slots of the tables

A group descriptor and an inode each have a slot in a block of their table. The driver reads the block,
copies a structure into it or out of it and writes the block back. The structures have 64 and 160 bytes
whatever the superblock says about the sizes of the slots.

* `Ext4.InodeKept`, `Ext4.SlotsApart`, **`Ext4.inode_slots_isolated_iff`**: when a write of one inode
  leaves another one alone;
* `Ext4.DescKept`, **`Ext4.desc_slots_isolated_iff`**: when a write of a group descriptor does.
-/

namespace KeonOS

open Function

/-! ## The geometry -/

/-- `Ext4Superblock`, as far as `init` reads it. -/
structure Ext4Superblock where
  blocksCountLo : ℕ
  blocksCountHi : ℕ
  firstDataBlock : ℕ
  logBlockSize : ℕ
  blocksPerGroup : ℕ
  inodesPerGroup : ℕ
  magic : ℕ
  revLevel : ℕ
  inodeSize : ℕ
  featureIncompat : ℕ
  descSize : ℕ
deriving DecidableEq, Repr

namespace Ext4

/-- `check_feature_incompat(EXT4_FEATURE_INCOMPAT_64BIT)` -/
def has64Bit (sb : Ext4Superblock) : Bool := sb.featureIncompat &&& 0x0080 ≠ 0

/-- `Ext4Manager::init`. It panics at another magic number; the division by `blocks_per_group` traps at
zero. -/
def init (sb : Ext4Superblock) : Option Ext4 :=
  if sb.magic ≠ 0xEF53 then none
  else if sb.blocksPerGroup = 0 then none
  else
    let totalBlocks := sb.blocksCountLo + 2 ^ 32 * sb.blocksCountHi
    some {
      -- the processor takes a shift count modulo 32
      blockSize := 1024 * 2 ^ (sb.logBlockSize % 32) % 2 ^ 32
      inodeSize := if 0 < sb.revLevel then sb.inodeSize else 128
      inodesPerGroup := sb.inodesPerGroup
      blocksPerGroup := sb.blocksPerGroup
      groupDescSize := if has64Bit sb then sb.descSize else 32
      groupsCount := (totalBlocks + sb.blocksPerGroup - 1) % 2 ^ 64 / sb.blocksPerGroup % 2 ^ 32
      firstDataBlock := sb.firstDataBlock
      is64 := has64Bit sb }

variable (fs : Ext4)

/-! ## Inodes -/

/-- The copies that `read_inode` and `write_inode` make stay in buffers of `block_size` bytes. -/
structure InodeInBuffer (ino : ℕ) : Prop where
  desc : fs.descOffset (fs.inodeGroup ino) + groupDescBytes ≤ fs.blockSize
  inode : fs.inodeOffset ino + inodeBytes ≤ fs.blockSize

/-- After `write_inode(n, x)`, the inode `n` reads as `x` and the inode `m` as before. -/
structure InodeKept (s : Ext4Store) (n m : ℕ) (x : Mem) : Prop where
  ends : ∃ s' r r₁ r₀, (fs.writeInode n x).exec s = some ((), s') ∧
    (fs.readInode n).exec s' = some (r, s') ∧ (fs.readInode m).exec s' = some (r₁, s') ∧
    (fs.readInode m).exec s = some (r₀, s) ∧
    ∀ i < min fs.inodeSize inodeBytes, r i = x i ∧ r₁ i = r₀ i
  written : fs.InodeInBuffer n
  other : fs.InodeInBuffer m

/-- Byte `x` of block `b` says where the inode table of group `g` is. -/
def LocatesTable (g b x : ℕ) : Prop :=
  b = fs.descBlock g ∧ (fs.descOffset g + 8 ≤ x ∧ x < fs.descOffset g + 12 ∨
    fs.is64 = true ∧ fs.descOffset g + 40 ≤ x ∧ x < fs.descOffset g + 44)

/-- Byte `x` of block `b` is one of the first `len` bytes of the slot of inode `n`. -/
def InSlot (d : ℕ → Mem) (n len b x : ℕ) : Prop :=
  b = fs.inodePlace d n ∧ fs.inodeOffset n ≤ x ∧ x < fs.inodeOffset n + len

/-- The 160 bytes of inode `n` lie in the block, outside the slot of `m` and what locates the tables. -/
structure SlotsApart (d : ℕ → Mem) (n m : ℕ) : Prop where
  written : fs.InodeInBuffer n
  other : fs.InodeInBuffer m
  apart : ∀ b x, fs.InSlot d n inodeBytes b x → ¬fs.LocatesTable (fs.inodeGroup n) b x ∧
    ¬fs.LocatesTable (fs.inodeGroup m) b x ∧ ¬fs.InSlot d m (min fs.inodeSize inodeBytes) b x

/-- The two disks have the inode tables of these two inodes at the same places. -/
def SamePlaces (n m : ℕ) (d d' : ℕ → Mem) : Prop :=
  fs.inodeTableOf d' (fs.inodeGroup n) = fs.inodeTableOf d (fs.inodeGroup n) ∧
    fs.inodeTableOf d' (fs.inodeGroup m) = fs.inodeTableOf d (fs.inodeGroup m)

variable {fs} {d d' : ℕ → Mem} {g n m : ℕ} {x : Mem}

theorem readLE_locations {a p : ℕ} (hp : p = 8 ∨ p = 40) (m : Mem) :
    (descLocations a m).readLE p 4 = m.readLE (a + p) 4 :=
  Mem.readLE_congr fun i hi => by
    rw [descLocations, if_pos (by omega), Nat.add_assoc]

theorem inodeTableOf_eq_iff :
    fs.inodeTableOf d' g = fs.inodeTableOf d g ↔ ∀ b x, fs.LocatesTable g b x → d' b x = d b x := by
  simp only [inodeTableOf, getInodeTable, location, readLE_locations (.inl rfl),
    readLE_locations (.inr rfl)]
  have hlt : ∀ (m : Mem) a, m.readLE a 4 < 2 ^ 32 := fun m a => m.readLE_lt a 4
  refine ⟨fun h b x hx => ?_, fun h => ?_⟩
  · obtain ⟨rfl, hx⟩ := hx
    have hlo : (d' (fs.descBlock g)).readLE (fs.descOffset g + 8) 4 =
        (d (fs.descBlock g)).readLE (fs.descOffset g + 8) 4 := by
      split_ifs at h
      · have h1 := hlt (d' (fs.descBlock g)) (fs.descOffset g + 8)
        have h2 := hlt (d (fs.descBlock g)) (fs.descOffset g + 8)
        omega
      · exact h
    rcases hx with ⟨h1, h2⟩ | ⟨h64, h1, h2⟩
    · have hbyte := Mem.readLE_inj hlo (x - (fs.descOffset g + 8)) (by omega)
      rwa [Nat.add_sub_cancel' h1] at hbyte
    · rw [if_pos h64, if_pos h64, hlo] at h
      have hbyte := Mem.readLE_inj (Nat.eq_of_mul_eq_mul_left (by norm_num) (Nat.add_left_cancel h))
        (x - (fs.descOffset g + 40)) (by omega)
      rwa [Nat.add_sub_cancel' h1] at hbyte
  · have hlo : (d' (fs.descBlock g)).readLE (fs.descOffset g + 8) 4 =
        (d (fs.descBlock g)).readLE (fs.descOffset g + 8) 4 :=
      Mem.readLE_congr fun i hi => h _ _ ⟨rfl, .inl ⟨by omega, by omega⟩⟩
    rw [hlo]
    split_ifs with h64
    · rw [Mem.readLE_congr fun i hi => h _ _ ⟨rfl, .inr ⟨h64, by omega, by omega⟩⟩]
    · rfl

/-! ### The write -/

theorem withInode_apply (b y : ℕ) (hy : y < fs.blockSize) :
    (fs.InSlot d n inodeBytes b y → fs.withInode d n x b y = x (y - fs.inodeOffset n)) ∧
    (¬fs.InSlot d n inodeBytes b y → fs.withInode d n x b y = d b y) := by
  refine ⟨fun ⟨hb, h1, h2⟩ => ?_, fun hslot => ?_⟩
  · rw [withInode, hb, update_self, Mem.copy_apply h1 h2]
  by_cases hb : b = fs.inodePlace d n
  · have hout : y < fs.inodeOffset n ∨ fs.inodeOffset n + inodeBytes ≤ y := by
      by_contra hin
      exact hslot ⟨hb, by omega, by omega⟩
    rw [withInode, hb, update_self, Mem.copy_apply_of_notMem hout, Mem.slice_apply hy, Nat.zero_add]
  · rw [withInode, update_of_ne hb]

variable {s : Ext4Store} {b y c z : ℕ} {v : UInt8}

theorem inodeKept_iff : fs.InodeKept s n m x ↔
    fs.InodeInBuffer n ∧ fs.InodeInBuffer m ∧ ∀ i < min fs.inodeSize inodeBytes,
      fs.inodeOf (fs.withInode s.disk n x) n i = x i ∧
      fs.inodeOf (fs.withInode s.disk n x) m i = fs.inodeOf s.disk m i := by
  refine ⟨fun h => ⟨h.written, h.other, ?_⟩, fun ⟨h1, h2, h3⟩ =>
    ⟨⟨_, _, _, _, rfl, rfl, rfl, rfl, h3⟩, h1, h2⟩⟩
  obtain ⟨s', r, r₁, r₀, hw, hr, hr₁, hr₀, hall⟩ := h.ends
  cases hw
  cases hr
  cases hr₁
  cases hr₀
  exact hall

theorem inodeOf_apply {i : ℕ} (hi : i < inodeBytes) (d : ℕ → Mem) (n : ℕ) :
    fs.inodeOf d n i = d (fs.inodePlace d n) (fs.inodeOffset n + i) := Mem.slice_apply hi

theorem InodeInBuffer.locates_lt (h : fs.InodeInBuffer n)
    (hy : fs.LocatesTable (fs.inodeGroup n) b y) : y < fs.blockSize := by
  have hdesc : fs.descOffset (fs.inodeGroup n) + 64 ≤ fs.blockSize := h.desc
  rcases hy with ⟨-, hy | hy⟩ <;> omega

theorem SlotsApart.of_samePlaces (h : fs.SlotsApart d n m) (hp : fs.SamePlaces n m d d') :
    fs.SlotsApart d' n m := by
  refine ⟨h.written, h.other, fun b y hy => ?_⟩
  have hn : fs.inodePlace d' n = fs.inodePlace d n := by rw [inodePlace, hp.1, inodePlace]
  have hm : fs.inodePlace d' m = fs.inodePlace d m := by rw [inodePlace, hp.2, inodePlace]
  have := h.apart b y (by rwa [InSlot, ← hn])
  rwa [InSlot, hm]

theorem SlotsApart.kept (h : fs.SlotsApart s.disk n m) (x : Mem) : fs.InodeKept s n m x := by
  refine inodeKept_iff.mpr ⟨h.written, h.other, fun i hi => ?_⟩
  -- the write leaves the bytes that locate the two tables alone
  have hplace : ∀ {k}, fs.InodeInBuffer k →
      (∀ b y, fs.InSlot s.disk n inodeBytes b y → ¬fs.LocatesTable (fs.inodeGroup k) b y) →
      fs.inodePlace (fs.withInode s.disk n x) k = fs.inodePlace s.disk k := by
    intro k hk hout
    rw [inodePlace, inodeTableOf_eq_iff.mpr fun b y hy =>
      (withInode_apply b y (hk.locates_lt hy)).2 fun hin => hout b y hin hy, inodePlace]
  have hib : i < inodeBytes := lt_of_lt_of_le hi (min_le_right _ _)
  have hn := h.written.inode
  have hm := h.other.inode
  rw [inodeOf_apply hib, inodeOf_apply hib, inodeOf_apply hib,
    hplace h.written fun b y hy => (h.apart b y hy).1,
    hplace h.other fun b y hy => (h.apart b y hy).2.1]
  refine ⟨?_, ?_⟩
  · rw [(withInode_apply _ _ (by omega)).1 ⟨rfl, by omega, by omega⟩, Nat.add_sub_cancel_left]
  · exact (withInode_apply _ _ (by omega)).2 fun hin =>
      (h.apart _ _ hin).2.2 ⟨rfl, by omega, by omega⟩

/-! ### Slots that are not apart -/

variable (fs) in
/-- The bytes of a block that locate the table of a group. -/
def locating (g : ℕ) : Finset ℕ := Finset.Ico (fs.descOffset g + 8) (fs.descOffset g + 12) ∪
    Finset.Ico (fs.descOffset g + 40) (fs.descOffset g + 44)

theorem LocatesTable.mem (h : fs.LocatesTable g b y) : y ∈ fs.locating g := by
  rw [locating, Finset.mem_union, Finset.mem_Ico, Finset.mem_Ico]
  rcases h with ⟨-, h | h⟩
  · exact .inl h
  · exact .inr h.2

variable (fs) in
theorem card_locating (g : ℕ) : (fs.locating g).card ≤ 8 := by
  refine (Finset.card_union_le _ _).trans ?_
  simp only [Nat.card_Ico]
  omega

variable (fs) in
theorem exists_free_byte (o g g' : ℕ) : ∃ i < 128, o + i ∉ fs.locating g ∧ o + i ∉ fs.locating g' := by
  have hcard : (fs.locating g ∪ fs.locating g').card < (Finset.Ico o (o + 128)).card := by
    have h1 := Finset.card_union_le (fs.locating g) (fs.locating g')
    have h2 := card_locating fs g
    have h3 := card_locating fs g'
    rw [Nat.card_Ico]
    omega
  obtain ⟨y, hy, hnot⟩ := Finset.exists_mem_notMem_of_card_lt_card hcard
  rw [Finset.mem_Ico] at hy
  rw [Finset.mem_union, not_or] at hnot
  refine ⟨y - o, by omega, ?_⟩
  rwa [Nat.add_sub_cancel' hy.1]

theorem byte_succ_ne (v : UInt8) : v + 1 ≠ v := by
  intro h
  have hnat := congrArg UInt8.toNat h
  rw [UInt8.toNat_add, UInt8.toNat_one] at hnat
  omega

variable (fs) in
/-- The bytes in the slot of inode `n`, but another value at byte `y` of the block. -/
def slotWith (d : ℕ → Mem) (n y : ℕ) : Mem := fun i =>
  if fs.inodeOffset n + i = y then d (fs.inodePlace d n) y + 1
  else d (fs.inodePlace d n) (fs.inodeOffset n + i)

theorem withInode_slotWith (hy : fs.InSlot d n inodeBytes b y) (hz : z < fs.blockSize) :
    fs.withInode d n (fs.slotWith d n y) c z = if c = b ∧ z = y then d c z + 1 else d c z := by
  by_cases hin : fs.InSlot d n inodeBytes c z
  · rw [(withInode_apply c z hz).1 hin, slotWith, Nat.add_sub_cancel' hin.2.1, hin.1, hy.1]
    by_cases h : z = y
    · rw [if_pos h, if_pos ⟨rfl, h⟩, h]
    · rw [if_neg h, if_neg fun h' => h h'.2]
  · rw [(withInode_apply c z hz).2 hin, if_neg]
    rintro ⟨rfl, rfl⟩
    exact hin hy

theorem inodePlace_slotWith_ne {k : ℕ} (hk : fs.InodeInBuffer k)
    (hy : fs.InSlot d n inodeBytes b y) (hloc : fs.LocatesTable (fs.inodeGroup k) b y) :
    fs.inodePlace (fs.withInode d n (fs.slotWith d n y)) k ≠ fs.inodePlace d k := by
  intro h
  have hbyte := inodeTableOf_eq_iff.mp (Nat.add_right_cancel h) b y hloc
  rw [withInode_slotWith hy (hk.locates_lt hloc), if_pos ⟨rfl, rfl⟩] at hbyte
  exact byte_succ_ne _ hbyte

def withByte (d : ℕ → Mem) (b y : ℕ) (v : UInt8) : ℕ → Mem :=
  Function.update d b (Function.update (d b) y v)

theorem withByte_self : withByte d b y v b y = v := by
  rw [withByte, update_self, update_self]

theorem withByte_of_ne (h : c ≠ b ∨ z ≠ y) : withByte d b y v c z = d c z := by
  by_cases hc : c = b
  · subst hc
    rw [withByte, update_self, update_of_ne (h.resolve_left fun hc => hc rfl)]
  · rw [withByte, update_of_ne hc]

theorem withInode_congr (hplace : fs.inodePlace d' n = fs.inodePlace d n)
    (hz : z < fs.blockSize) (h : d' c z = d c z) :
    fs.withInode d' n x c z = fs.withInode d n x c z := by
  have hslot : fs.InSlot d' n inodeBytes c z ↔ fs.InSlot d n inodeBytes c z := by
    rw [InSlot, InSlot, hplace]
  by_cases hin : fs.InSlot d n inodeBytes c z
  · rw [(withInode_apply c z hz).1 (hslot.mpr hin), (withInode_apply c z hz).1 hin]
  · rw [(withInode_apply c z hz).2 (mt hslot.mp hin), (withInode_apply c z hz).2 hin, h]

section NotApart

variable {s : Ext4Store} (hsize : 128 ≤ fs.inodeSize)
  (h : ∀ s' : Ext4Store, fs.SamePlaces n m s.disk s'.disk → ∀ x, fs.InodeKept s' n m x)
include h

theorem kept_self (x : Mem) : fs.InodeInBuffer n ∧ fs.InodeInBuffer m ∧
    ∀ i < min fs.inodeSize inodeBytes, fs.inodeOf (fs.withInode s.disk n x) n i = x i ∧
      fs.inodeOf (fs.withInode s.disk n x) m i = fs.inodeOf s.disk m i :=
  inodeKept_iff.mp (h s ⟨rfl, rfl⟩ x)

include hsize

theorem not_locates_own (hy : fs.InSlot s.disk n inodeBytes b y) :
    ¬fs.LocatesTable (fs.inodeGroup n) b y := by
  intro hloc
  obtain ⟨hn, -, -⟩ := kept_self h fun _ => 0
  obtain ⟨i, hi, hfree, -⟩ := exists_free_byte fs (fs.inodeOffset n) (fs.inodeGroup n) (fs.inodeGroup n)
  have hin := hn.inode
  set B := fs.inodePlace (fs.withInode s.disk n (fs.slotWith s.disk n y)) n with hB
  have hne : B ≠ fs.inodePlace s.disk n := inodePlace_slotWith_ne hn hy hloc
  let x := Function.update (fs.slotWith s.disk n y) i (s.disk B (fs.inodeOffset n + i) + 1)
  have hplace : fs.inodePlace (fs.withInode s.disk n x) n = B := by
    rw [hB, inodePlace, inodePlace, Nat.add_right_cancel_iff]
    refine inodeTableOf_eq_iff.mpr fun c z hz => ?_
    have hlt := hn.locates_lt hz
    by_cases hslot : fs.InSlot s.disk n inodeBytes c z
    · rw [(withInode_apply c z hlt).1 hslot, (withInode_apply c z hlt).1 hslot]
      refine update_of_ne ?_ _ _
      rintro rfl
      rw [Nat.add_sub_cancel' hslot.2.1] at hfree
      exact hfree hz.mem
    · rw [(withInode_apply c z hlt).2 hslot, (withInode_apply c z hlt).2 hslot]
  have hib : i < inodeBytes := hi.trans (by decide)
  have hread := ((kept_self h x).2.2 i (lt_min (by omega) hib)).1
  rw [inodeOf_apply hib, hplace, (withInode_apply _ _ (by omega)).2 fun hslot => hne hslot.1] at hread
  exact byte_succ_ne _ (hread.trans (update_self _ _ _)).symm

theorem not_locates_other (hy : fs.InSlot s.disk n inodeBytes b y) :
    ¬fs.LocatesTable (fs.inodeGroup m) b y := by
  intro hloc
  obtain ⟨-, hm, -⟩ := kept_self h fun _ => 0
  obtain ⟨i, hi, hfree, hfree'⟩ := exists_free_byte fs (fs.inodeOffset m) (fs.inodeGroup n)
    (fs.inodeGroup m)
  have him := hm.inode
  have hib : i < inodeBytes := hi.trans (by decide)
  set x := fs.slotWith s.disk n y with hx
  set B := fs.inodePlace (fs.withInode s.disk n x) m with hB
  have hne : B ≠ fs.inodePlace s.disk m := inodePlace_slotWith_ne hm hy hloc
  -- a disk on which the inode has another byte there than block `B`
  set v := fs.withInode s.disk n x B (fs.inodeOffset m + i) with hv
  set d' := withByte s.disk (fs.inodePlace s.disk m) (fs.inodeOffset m + i) (v + 1) with hd'
  have hsame : fs.SamePlaces n m s.disk d' := ⟨inodeTableOf_eq_iff.mpr fun c z hz =>
        withByte_of_ne (.inr (ne_of_mem_of_not_mem hz.mem hfree)),
      inodeTableOf_eq_iff.mpr fun c z hz =>
        withByte_of_ne (.inr (ne_of_mem_of_not_mem hz.mem hfree'))⟩
  have hplaceN : fs.inodePlace d' n = fs.inodePlace s.disk n := by
    rw [inodePlace, hsame.1, inodePlace]
  have hplaceM : fs.inodePlace (fs.withInode d' n x) m = B := by
    rw [hB, inodePlace, inodePlace, Nat.add_right_cancel_iff]
    exact inodeTableOf_eq_iff.mpr fun c z hz => withInode_congr hplaceN (hm.locates_lt hz)
      (withByte_of_ne (.inr (ne_of_mem_of_not_mem hz.mem hfree')))
  have hread := ((inodeKept_iff.mp (h ⟨d', s.events⟩ hsame x)).2.2 i (lt_min (by omega) hib)).2
  rw [inodeOf_apply hib, inodeOf_apply hib, hplaceM,
    withInode_congr hplaceN (by omega) (withByte_of_ne (.inl hne)), ← hv,
    show fs.inodePlace d' m = fs.inodePlace s.disk m by rw [inodePlace, hsame.2, inodePlace]] at hread
  exact byte_succ_ne v (hread.trans withByte_self).symm

theorem not_inSlot_other (hy : fs.InSlot s.disk n inodeBytes b y) :
    ¬fs.InSlot s.disk m (min fs.inodeSize inodeBytes) b y := by
  rintro ⟨rfl, h1, h2⟩
  obtain ⟨-, hm, hread⟩ := kept_self h (fs.slotWith s.disk n y)
  have hib : y - fs.inodeOffset m < inodeBytes := by omega
  have him := hm.inode
  have hplace : fs.inodePlace (fs.withInode s.disk n (fs.slotWith s.disk n y)) m =
      fs.inodePlace s.disk m := by
    rw [inodePlace, inodePlace, Nat.add_right_cancel_iff]
    exact inodeTableOf_eq_iff.mpr fun c z hz => (withInode_apply c z (hm.locates_lt hz)).2
      fun hin => not_locates_other hsize h hin hz
  have hbyte := (hread (y - fs.inodeOffset m) (by omega)).2
  rw [inodeOf_apply hib, inodeOf_apply hib, hplace, Nat.add_sub_cancel' h1,
    withInode_slotWith hy (by omega), if_pos ⟨rfl, rfl⟩] at hbyte
  exact byte_succ_ne _ hbyte

end NotApart

/-- **Inode slots are isolated exactly when they are apart**: the 160 bytes that are copied lie in the
block, outside the slot of `m` and outside the descriptors that locate the two tables. -/
theorem inode_slots_isolated_iff (fs : Ext4) (s : Ext4Store) (n m : ℕ) (hsize : 128 ≤ fs.inodeSize) :
    (∀ s' : Ext4Store, fs.SamePlaces n m s.disk s'.disk → ∀ x, fs.InodeKept s' n m x) ↔
      fs.SlotsApart s.disk n m := by
  refine ⟨fun h => ⟨(kept_self h fun _ => 0).1, (kept_self h fun _ => 0).2.1, fun b y hy => ?_⟩,
    fun h s' hs' x => (h.of_samePlaces hs').kept x⟩
  exact ⟨not_locates_own hsize h hy, not_locates_other hsize h hy, not_inSlot_other hsize h hy⟩

theorem Consistent.slotsApart {use : ℕ → BlockUse} {live : ℕ → Prop} (hw : fs.WellFormed)
    (h : fs.Consistent d use live) (hn : 0 < n) (hgn : fs.inodeGroup n < fs.groupsCount) (hm : 0 < m)
    (hgm : fs.inodeGroup m < fs.groupsCount) (hne : n ≠ m) : fs.SlotsApart d n m := by
  have hbuf : ∀ k, fs.InodeInBuffer k := fun k => ⟨hw.blocksFit.descOffset_le _, hw.inodeOffset_le k⟩
  have hdesc : ∀ k, fs.inodeGroup k < fs.groupsCount →
      fs.inodePlace d n ≠ fs.descBlock (fs.inodeGroup k) := by
    intro k hk heq
    have huse := h.inodeTable n hn hgn
    rw [heq, h.desc _ hk] at huse
    cases huse
  refine ⟨hbuf n, hbuf m, fun b y hy => ⟨fun hloc => ?_, fun hloc => ?_, fun hslot => ?_⟩⟩
  · exact hdesc n hgn (hy.1.symm.trans hloc.1)
  · exact hdesc m hgm (hy.1.symm.trans hloc.1)
  have huse := h.inodeTable n hn hgn
  rw [hy.1.symm.trans hslot.1, h.inodeTable m hm hgm] at huse
  obtain ⟨hgroup, hblock⟩ := BlockUse.inodeTable.inj huse
  have hlt : y < fs.inodeOffset m + inodeBytes :=
    hslot.2.2.trans_le (Nat.add_le_add_left (min_le_right _ _) _)
  have hle : y < fs.inodeOffset n + inodeBytes := hy.2.2
  have h1 := hy.2.1
  have h2 := hslot.2.1
  rcases hw.inodeOffset_disjoint hn hm hne hgroup.symm hblock.symm with hdis | hdis <;> omega

theorem inode_slots_isolated_small : small.SlotsApart smallDisk 2 12 ∧
    ∀ s' : Ext4Store, small.SamePlaces 2 12 smallDisk s'.disk → ∀ x, small.InodeKept s' 2 12 x := by
  have hapart : small.SlotsApart smallDisk 2 12 :=
    small_consistent.slotsApart small_wellFormed (by decide) (by decide) (by decide) (by decide)
      (by decide)
  exact ⟨hapart, (inode_slots_isolated_iff small ⟨smallDisk, []⟩ 2 12 (by decide)).mpr hapart⟩

def smallSuper : Ext4Superblock where
  blocksCountLo := 64
  blocksCountHi := 0
  firstDataBlock := 1
  logBlockSize := 0
  blocksPerGroup := 64
  inodesPerGroup := 16
  magic := 0xEF53
  revLevel := 0
  inodeSize := 0
  featureIncompat := 0xC0
  descSize := 64

/-- **Inodes of 128 bytes**: inode 1 overwrites the start of inode 2, and inode 8 leaves the buffer. -/
theorem inode_slots_overlap : ∃ fs, init smallSuper = some fs ∧ fs.inodeSize = 128 ∧
    fs.inodeSize ∣ fs.blockSize ∧
    (∃ s' r r₀, (fs.writeInode 1 fun _ => 1).exec ⟨smallDisk, []⟩ = some ((), s') ∧
      (fs.readInode 2).exec s' = some (r, s') ∧
      (fs.readInode 2).exec ⟨smallDisk, []⟩ = some (r₀, ⟨smallDisk, []⟩) ∧ r 0 = 1 ∧ r₀ 0 = 0) ∧
    fs.blockSize < fs.inodeOffset 8 + inodeBytes ∧
    ¬fs.InodeKept ⟨smallDisk, []⟩ 1 2 fun _ => 1 := by
  refine ⟨_, rfl, rfl, by decide, ⟨_, _, _, rfl, rfl, rfl, by decide +kernel, by decide +kernel⟩,
    by decide, fun h => ?_⟩
  have hbyte := ((inodeKept_iff.mp h).2.2 0 (by decide)).2
  exact absurd hbyte (by decide +kernel)

/-! ## Group descriptors -/

/-- After `write_group_desc(g, gd)`, only the slot of the descriptor has changed. -/
structure DescKept (fs : Ext4) (s : Ext4Store) (g : ℕ) (gd : Mem) : Prop where
  ends : ∃ s' r, (fs.writeGroupDesc g gd).exec s = some ((), s') ∧
    (fs.readGroupDesc g).exec s' = some (r, s') ∧
    (∀ b, ∀ x < fs.blockSize, ¬(b = fs.descBlock g ∧ fs.descOffset g ≤ x ∧
      x < fs.descOffset g + fs.groupDescSize) → s'.disk b x = s.disk b x) ∧
    ∀ i < fs.groupDescSize, r i = gd i
  buffer : fs.descOffset g + groupDescBytes ≤ fs.blockSize

/-- **Descriptor slots are isolated exactly when they have 64 bytes.** -/
theorem desc_slots_isolated_iff (fs : Ext4) (hsize : fs.groupDescSize = 32 ∨ fs.groupDescSize = 64)
    (s : Ext4Store) (g : ℕ) :
    (∀ gd, fs.DescKept s g gd) ↔ fs.groupDescSize = 64 ∧ 64 ≤ fs.blockSize := by
  have hbytes : groupDescBytes = 64 := rfl
  refine ⟨fun h => ⟨?_, ?_⟩, fun ⟨hsize, hbs⟩ gd => ?_⟩
  · refine hsize.resolve_left fun h32 => ?_
    -- the 32 bytes after the slot are overwritten, too
    obtain ⟨⟨s', r, hw, -, hother, -⟩, hbuf⟩ :=
      h fun _ => s.disk (fs.descBlock g) (fs.descOffset g + 32) + 1
    obtain rfl := (Prod.mk.inj (Option.some.inj hw)).2
    have hbyte := hother (fs.descBlock g) (fs.descOffset g + 32) (by omega) (by omega)
    rw [Store.put_disk_self, Mem.copy_apply (by omega) (by omega)] at hbyte
    exact byte_succ_ne _ hbyte
  · have hbuf : fs.descOffset g + 64 ≤ fs.blockSize := (h fun _ => 0).buffer
    omega
  have hbuf : fs.descOffset g + 64 ≤ fs.blockSize := by
    have hpos : 0 < fs.blockSize / 64 := Nat.div_pos hbs (by norm_num)
    have hlt := Nat.mod_lt g hpos
    have hmul := Nat.div_mul_le_self fs.blockSize 64
    rw [descOffset, hsize]
    calc g % (fs.blockSize / 64) * 64 + 64 = (g % (fs.blockSize / 64) + 1) * 64 := by ring
      _ ≤ fs.blockSize / 64 * 64 := Nat.mul_le_mul_right 64 hlt
      _ ≤ fs.blockSize := hmul
  refine ⟨⟨_, _, exec_writeGroupDesc g gd, rfl, fun b x hx hout => ?_, fun i hi => ?_⟩, hbuf⟩
  · by_cases hb : b = fs.descBlock g
    · subst hb
      rw [Store.put_disk_self, Mem.copy_apply_of_notMem, Mem.slice_apply hx, Nat.zero_add]
      by_contra hin
      exact hout ⟨rfl, by omega, by omega⟩
    · rw [Store.put_disk_of_ne hb]
  · have hi : i < 64 := hsize ▸ hi
    rw [Store.put_disk_self]
    change Mem.slice _ (fs.descOffset g) 64 i = gd i
    rw [Mem.slice_apply hi, Mem.copy_apply (by omega) (by omega), Nat.add_sub_cancel_left]

/-- A volume of revision 1 without 64-bit descriptors. -/
def descSuper : Ext4Superblock :=
  { smallSuper with revLevel := 1, inodeSize := 256, featureIncompat := 0x40 }

/-- **Descriptors of 32 bytes**: the first one overwrites the second, and the last one leaves the buffer. -/
theorem desc_slots_overlap : ∃ fs, init descSuper = some fs ∧ fs.groupDescSize = 32 ∧
    (∃ s', (fs.writeGroupDesc 0 fun _ => 1).exec ⟨smallDisk, []⟩ = some ((), s') ∧
      s'.disk 2 32 = 1 ∧ smallDisk 2 32 = 0) ∧
    fs.blockSize < fs.descOffset 31 + groupDescBytes ∧
    ¬fs.DescKept ⟨smallDisk, []⟩ 0 fun _ => 1 := by
  refine ⟨_, rfl, rfl, ⟨_, rfl, by decide +kernel, by decide +kernel⟩, by decide, fun h => ?_⟩
  obtain ⟨s', r, hw, -, hother, -⟩ := h.ends
  obtain rfl := (Prod.mk.inj (Option.some.inj hw)).2
  have hbyte := hother 2 32 (by decide) (by decide)
  exact absurd hbyte (by decide +kernel)

theorem desc_slots_isolated_small : small.groupDescSize = 64 ∧ 64 ≤ small.blockSize ∧
    ∀ gd, small.DescKept ⟨smallDisk, []⟩ 0 gd :=
  ⟨rfl, by decide, (desc_slots_isolated_iff small (.inr rfl) ⟨smallDisk, []⟩ 0).mpr ⟨rfl, by decide⟩⟩

end Ext4

end KeonOS
