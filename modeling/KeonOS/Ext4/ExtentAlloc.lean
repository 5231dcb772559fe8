import KeonOS.Ext4.Accounting
import KeonOS.Ext4.ExtentTree

/-!
# Allocating a block of a file

`extent_allocate_blocks` for an inode whose extents are in the inode itself. The call takes a block and
lengthens the last extent or adds an extent; when it cannot do either, it gives the block back.

* `Ext4.BlockAllocated`, **`Ext4.extent_allocation_iff`**: when the call maps the block and nothing else,
  or leaves no trace.
-/

namespace KeonOS

open List Option BlockM

def Extent.Apart (e e' : Extent) : Prop := e.Before e' ∨ e'.Before e

def inodeExtents (m : Mem) : List Extent :=
  (List.range (ehEntries m iBlock)).map fun k => extentAt m (entryAt iBlock k)

namespace Ext4

/-- **A well-formed list of extents in an inode**: at most four, not empty, which do not overlap. -/
structure ExtentList (m : Mem) : Prop where
  extents : usesExtents m = true
  magic : ehMagic m iBlock = extentMagic
  depth : ehDepth m iBlock = 0
  entries : ehEntries m iBlock ≤ ehMax m iBlock
  max : ehMax m iBlock ≤ 4
  each : ∀ e ∈ inodeExtents m, 1 ≤ e.len ∧ e.block + e.len < 2 ^ 32 ∧ e.start ≠ 0
  apart : (inodeExtents m).Pairwise Extent.Apart

/-- The block continues the last extent, and the logical block does, too. -/
def Merges (m : Mem) (l b : ℕ) : Prop :=
  0 < ehEntries m iBlock ∧ l = (eeBlock m (lastExtent m) + eeLen m (lastExtent m)) % 2 ^ 32 ∧
    b = eeStart m (lastExtent m) + eeLen m (lastExtent m) ∧ eeLen m (lastExtent m) < 32768

variable (fs : Ext4)

/-- There is a free block, and it can be added to the inode. -/
def RoomFor (d : ℕ → Mem) (m : Mem) (l : ℕ) : Prop :=
  ∃ g i, findBit fs d bgFreeBlocksCount (fs.blockBitmapOf d) fs.blocksPerGroup fs.groupsCount 0 =
      some (g, i) ∧
    (Merges m l (fs.blockAt g i) ∨ ehEntries m iBlock < ehMax m iBlock)

/-- What the call should do: map the block to one that was free, or leave everything as it was. -/
structure BlockAllocated (s : Ext4Store) (m : Mem) (l : ℕ) (ok : Bool) (m' : Mem) (s' : Ext4Store) :
    Prop where
  mapped : ok = true → ∃ g < fs.groupsCount, ∃ i < fs.blocksPerGroup,
    fs.blockBit s.disk g i = false ∧ (fs.extentGetBlock m' l).exec s' = some (fs.blockAt g i, s')
  others : ok = true → ∀ x, x < 2 ^ 32 → x ≠ l → ∃ r,
    (fs.extentGetBlock m x).exec s = some (r, s) ∧ (fs.extentGetBlock m' x).exec s' = some (r, s')
  apart : ok = true → (inodeExtents m').Pairwise Extent.Apart
  undone : ok = false → m' = m ∧ fs.SameBlocks s.disk s'.disk ∧
    ∀ c : Ext4Counts, c.afterAll s'.events = c.afterAll s.events

variable {fs} {use : ℕ → BlockUse} {live : ℕ → Prop} {s : Ext4Store} {m m' : Mem} {l b g i : ℕ}

/-! ## The list -/

section List

variable (hm : ExtentList m)
include hm

theorem ExtentList.exec_extentGetBlock (s : Ext4Store) (x : ℕ) :
    (fs.extentGetBlock m x).exec s = some ((findExtent m iBlock x).getD 0, s) := by
  have hnodes : fs.NodesOk s.disk (ehDepth m iBlock) m iBlock := by
    rw [hm.depth]
    trivial
  rw [exec_extentGetBlock_of_nodes (fun _ => hm.magic) fun _ => hnodes,
    mapOf_of_depth hm.extents hm.depth]

theorem ExtentList.extent {k : ℕ} (hk : k < ehEntries m iBlock) : 1 ≤ eeLen m (entryAt iBlock k) ∧
      eeBlock m (entryAt iBlock k) + eeLen m (entryAt iBlock k) < 2 ^ 32 ∧
      eeStart m (entryAt iBlock k) ≠ 0 :=
  hm.each _ (mem_map_of_mem (mem_range.mpr hk))

theorem ExtentList.findExtent_none (hmap : (fs.extentGetBlock m l).exec s = some (0, s)) :
    findExtent m iBlock l = none := by
  rw [hm.exec_extentGetBlock s l, Option.some.injEq, Prod.mk.injEq] at hmap
  cases hf : findExtent m iBlock l with
  | none => rfl
  | some p =>
    obtain rfl : p = 0 := by rw [hf] at hmap; exact hmap.1
    rw [findExtent_eq] at hf
    obtain ⟨k, hk, hzero⟩ := map_eq_some_iff.mp hf
    have hstart := (hm.extent (firstBelow_eq_some hk).1).2.2
    rw [extentBlock] at hzero
    omega

theorem ExtentList.not_covers (hnone : findExtent m iBlock l = none) :
    ∀ e ∈ inodeExtents m, ¬e.Covers l := by
  intro e he hcov
  obtain ⟨k, hk, rfl⟩ := List.mem_map.mp he
  have hk := mem_range.mp hk
  rw [findExtent_eq] at hnone
  have hnot := firstBelow_eq_none (map_eq_none_iff.mp hnone) hk
  rw [covers, Nat.mod_eq_of_lt (hm.extent hk).2.1] at hnot
  exact of_decide_eq_false hnot hcov

end List

/-- What the list depends on, apart from the extents themselves. -/
structure SameHeader (m m' : Mem) : Prop where
  flags : usesExtents m' = usesExtents m
  magic : ehMagic m' iBlock = ehMagic m iBlock
  depth : ehDepth m' iBlock = ehDepth m iBlock

theorem sameHeader_addExtent : SameHeader m (addExtent m l 1 b) := by
  have hhead : ∀ x n, x + n ≤ 42 ∨ 44 ≤ x ∧ x + n ≤ 52 →
      (addExtent m l 1 b).readLE x n = m.readLE x n := by
    intro x n hx
    refine readLE_addExtent ?_
    simp only [entryAt, iBlock]
    omega
  exact ⟨usesExtents_congr (hhead iFlags 4 (by norm_num)), hhead iBlock 2 (by norm_num),
    hhead (iBlock + 6) 2 (by norm_num)⟩

theorem sameHeader_growExtent : SameHeader m (growExtent m) :=
  ⟨usesExtents_congr (readLE_growExtent_header (by norm_num)),
    readLE_growExtent_header (by norm_num), readLE_growExtent_header (by norm_num)⟩

theorem SameHeader.exec_extentGetBlock (h : SameHeader m m') (hm : ExtentList m) (s : Ext4Store)
    (x : ℕ) : (fs.extentGetBlock m' x).exec s = some ((findExtent m' iBlock x).getD 0, s) := by
  have hdepth : ehDepth m' iBlock = 0 := h.depth.trans hm.depth
  have hnodes : fs.NodesOk s.disk (ehDepth m' iBlock) m' iBlock := by
    rw [hdepth]
    trivial
  rw [exec_extentGetBlock_of_nodes (fun _ => h.magic.trans hm.magic) fun _ => hnodes,
    mapOf_of_depth (h.flags.trans hm.extents) hdepth]

theorem inodeExtents_addExtent (he : ehEntries m iBlock < 4) (hl : l < 2 ^ 32) (hb : b < 2 ^ 48) :
    inodeExtents (addExtent m l 1 b) = inodeExtents m ++ [⟨l, 1, b⟩] := by
  rw [inodeExtents, ehEntries_addExtent he, range_succ, map_append, inodeExtents]
  refine congrArg₂ (· ++ ·) (map_congr_left fun k hk => ?_) ?_
  · obtain ⟨h1, h2, h3⟩ := extent_addExtent (l := l) (b := b) (mem_range.mp hk)
    rw [extentAt, h1, h2, h3, extentAt]
  · rw [map_singleton, extentAt, eeBlock_addExtent hl, eeLen_addExtent, eeStart_addExtent hb]

theorem inodeExtents_growExtent (h0 : 0 < ehEntries m iBlock) (hlen : eeLen m (lastExtent m) < 32768) :
    ∃ pre, inodeExtents m = pre ++ [extentAt m (lastExtent m)] ∧ inodeExtents (growExtent m) = pre ++
        [{ extentAt m (lastExtent m) with len := eeLen m (lastExtent m) + 1 }] := by
  obtain ⟨e, he⟩ := Nat.exists_eq_succ_of_ne_zero h0.ne'
  have hlast : lastExtent m = entryAt iBlock e := by rw [lastExtent, he, Nat.succ_sub_one]
  refine ⟨(List.range e).map fun k => extentAt m (entryAt iBlock k), ?_, ?_⟩
  · rw [inodeExtents, he, range_succ, map_append, map_singleton, hlast]
  rw [inodeExtents, ehEntries_growExtent, he, range_succ, map_append, map_singleton]
  refine congrArg₂ (· ++ ·) (map_congr_left fun k hk => ?_) ?_
  · obtain ⟨h1, h2⟩ := extent_growExtent (m := m) k
    rw [extentAt, h1, h2, eeLen_growExtent (by have := mem_range.mp hk; omega), extentAt]
  · obtain ⟨h1, h2⟩ := extent_growExtent (m := m) e
    rw [extentAt, h1, h2, ← hlast, eeLen_growExtent_last hlen, extentAt]

/-! ## The call -/

theorem exec_allocateBlock_of_find (hfind : findBit fs s.disk bgFreeBlocksCount
    (fs.blockBitmapOf s.disk) fs.blocksPerGroup fs.groupsCount 0 = some (g, i)) :
    fs.allocateBlock.exec s = some (fs.blockAt g i, fs.takeBlock g i s) := by
  rw [allocateBlock, exec_allocateBlockFrom, hfind]

section Call

variable (hm : ExtentList m)
include hm

theorem exec_noBlock (l : ℕ) (hfind : findBit fs s.disk bgFreeBlocksCount (fs.blockBitmapOf s.disk)
    fs.blocksPerGroup fs.groupsCount 0 = none) :
    (fs.extentAllocateBlocks m l 1).exec s = some ((false, m), s) := by
  have halloc : fs.allocateBlock.exec s = some (0, s) := by
    rw [allocateBlock, exec_allocateBlockFrom, hfind]
  rw [extentAllocateBlocks, if_neg (by simp [hm.extents]), if_neg (by simp [hm.depth])]
  dsimp only
  by_cases hlast : 0 < ehEntries m iBlock ∧
      l = (eeBlock m (lastExtent m) + eeLen m (lastExtent m)) % 2 ^ 32
  · rw [if_pos hlast, exec_bind, halloc]
    rfl
  · split_ifs
    · rfl
    · rw [exec_bind, halloc]
      rfl

variable (hne : fs.blockAt g i ≠ 0) (hfind : findBit fs s.disk bgFreeBlocksCount
  (fs.blockBitmapOf s.disk) fs.blocksPerGroup fs.groupsCount 0 = some (g, i))
include hne hfind

theorem exec_grow (hmerge : Merges m l (fs.blockAt g i)) :
    (fs.extentAllocateBlocks m l 1).exec s = some ((true, growExtent m), fs.takeBlock g i s) := by
  rw [extentAllocateBlocks, if_neg (by simp [hm.extents]), if_neg (by simp [hm.depth]),
    if_pos ⟨hmerge.1, hmerge.2.1⟩, exec_bind, exec_allocateBlock_of_find hfind,
    bind_some, if_neg hne, if_pos hmerge.2.2]
  rfl

theorem exec_add (hmerge : ¬Merges m l (fs.blockAt g i)) (hroom : ehEntries m iBlock < ehMax m iBlock) :
    (fs.extentAllocateBlocks m l 1).exec s =
      some ((true, addExtent m l 1 (fs.blockAt g i)), fs.takeBlock g i s) := by
  rw [extentAllocateBlocks, if_neg (by simp [hm.extents]), if_neg (by simp [hm.depth])]
  by_cases hlast : 0 < ehEntries m iBlock ∧
      l = (eeBlock m (lastExtent m) + eeLen m (lastExtent m)) % 2 ^ 32
  · rw [if_pos hlast, exec_bind, exec_allocateBlock_of_find hfind, bind_some,
      if_neg hne, if_neg fun h => hmerge ⟨hlast.1, hlast.2, h⟩, if_neg (not_le.mpr hroom)]
    rfl
  · rw [if_neg hlast, if_neg (not_le.mpr hroom), exec_bind,
      exec_allocateBlock_of_find hfind, bind_some, if_neg hne]
    rfl

theorem exec_full (ht : fs.TablesApart (fs.takeBlock g i s).disk) (hg : g < fs.groupsCount)
    (hi : i < fs.blocksPerGroup) (hmerge : ¬Merges m l (fs.blockAt g i))
    (hfull : ehMax m iBlock ≤ ehEntries m iBlock) :
    ∃ s', (fs.extentAllocateBlocks m l 1).exec s = some ((false, m), s') ∧
      (s' = s ∨ s' = fs.giveBlock g i (fs.takeBlock g i s)) := by
  rw [extentAllocateBlocks, if_neg (by simp [hm.extents]), if_neg (by simp [hm.depth])]
  by_cases hlast : 0 < ehEntries m iBlock ∧
      l = (eeBlock m (lastExtent m) + eeLen m (lastExtent m)) % 2 ^ 32
  · rw [if_pos hlast, exec_bind, exec_allocateBlock_of_find hfind, bind_some,
      if_neg hne, if_neg fun h => hmerge ⟨hlast.1, hlast.2, h⟩, if_pos hfull, exec_bind,
      exec_freeBlock_eq ht hg hi]
    exact ⟨_, rfl, .inr rfl⟩
  · rw [if_neg hlast, if_pos hfull]
    exact ⟨s, rfl, .inl rfl⟩

end Call

/-! ## The mapping -/

section Mapping

variable (hm : ExtentList m) (hnone : findExtent m iBlock l = none)
include hnone

theorem findExtent_addExtent_last (hl : l + 1 = 2 ^ 32) (he : ehEntries m iBlock < 4) :
    findExtent (addExtent m l 1 b) iBlock l = none := by
  have hsearch : firstBelow (ehEntries m iBlock) (covers (addExtent m l 1 b) iBlock l) =
      firstBelow (ehEntries m iBlock) (covers m iBlock l) :=
    firstBelow_congr fun k hk => (covers_addExtent hk).1
  have hnew : covers (addExtent m l 1 b) iBlock l (ehEntries m iBlock) = false := by
    exact decide_eq_false fun h => absurd h.2 (by omega)
  rw [findExtent_eq] at hnone
  rw [findExtent_eq, ehEntries_addExtent he, firstBelow_succ, hsearch, hnew, map_eq_none_iff.mp hnone]
  rfl

include hm

theorem allocated_grow {s' : Ext4Store} (hl : l + 1 < 2 ^ 32) (hg : g < fs.groupsCount)
    (hi : i < fs.blocksPerGroup) (hbit : fs.blockBit s.disk g i = false)
    (hmerge : Merges m l (fs.blockAt g i)) :
    fs.BlockAllocated s m l true (growExtent m) s' := by
  obtain ⟨h0, hlast, hblock, hlen⟩ := hmerge
  have hk : ehEntries m iBlock - 1 < ehEntries m iBlock := by omega
  have hend : eeBlock m (lastExtent m) + eeLen m (lastExtent m) < 2 ^ 32 := (hm.extent hk).2.1
  rw [Nat.mod_eq_of_lt hend] at hlast
  have hfind := findExtent_growExtent h0 (by omega) hlen (hlast ▸ hnone)
  have hget : ∀ x, (fs.extentGetBlock (growExtent m) x).exec s' = some (_, s') :=
    sameHeader_growExtent.exec_extentGetBlock hm s'
  refine ⟨fun _ => ⟨g, hg, i, hi, hbit, ?_⟩, fun _ x _ hx => ?_, fun _ => ?_, fun h => by cases h⟩
  · rw [hget, hfind, if_pos hlast, ← hblock, getD_some]
  · refine ⟨_, hm.exec_extentGetBlock s x, ?_⟩
    rw [hget, hfind, if_neg (hlast ▸ hx)]
  obtain ⟨pre, hpre, hgrown⟩ := inodeExtents_growExtent h0 hlen
  have hapart := hm.apart
  have hcov := hm.not_covers hnone
  rw [hpre] at hapart hcov
  rw [hgrown]
  obtain ⟨hbefore, -, hlastApart⟩ := pairwise_append.mp hapart
  refine pairwise_append.mpr ⟨hbefore, pairwise_singleton _ _, fun e he e' he' => ?_⟩
  rw [mem_singleton.mp he']
  have h1 := hlastApart e he _ (mem_singleton_self _)
  have h2 := hcov e (mem_append_left _ he)
  have h3 := (hm.each e (hpre ▸ mem_append_left _ he)).1
  simp only [Extent.Apart, Extent.Before, Extent.Covers, extentAt] at h1 h2 ⊢
  omega

theorem allocated_add {s' : Ext4Store} (hl : l + 1 < 2 ^ 32) (hg : g < fs.groupsCount)
    (hi : i < fs.blocksPerGroup) (hbit : fs.blockBit s.disk g i = false)
    (hlt : fs.blockAt g i < 2 ^ 48) (hroom : ehEntries m iBlock < ehMax m iBlock) :
    fs.BlockAllocated s m l true (addExtent m l 1 (fs.blockAt g i)) s' := by
  have he : ehEntries m iBlock < 4 := hroom.trans_le hm.max
  have hfind := findExtent_addExtent he hl hlt hnone
  have hget : ∀ x, (fs.extentGetBlock (addExtent m l 1 (fs.blockAt g i)) x).exec s' = some (_, s') :=
    sameHeader_addExtent.exec_extentGetBlock hm s'
  refine ⟨fun _ => ⟨g, hg, i, hi, hbit, ?_⟩, fun _ x _ hx => ?_, fun _ => ?_, fun h => by cases h⟩
  · rw [hget, hfind, if_pos rfl, getD_some]
  · refine ⟨_, hm.exec_extentGetBlock s x, ?_⟩
    rw [hget, hfind, if_neg hx]
  rw [inodeExtents_addExtent he (by omega) hlt]
  refine pairwise_append.mpr ⟨hm.apart, pairwise_singleton _ _, fun e he e' he' => ?_⟩
  rw [mem_singleton.mp he']
  have h1 := hm.not_covers hnone e he
  simp only [Extent.Apart, Extent.Before, Extent.Covers] at h1 ⊢
  omega

theorem findExtent_growExtent_last (hl : l + 1 = 2 ^ 32) (hmerge : Merges m l b) :
    findExtent (growExtent m) iBlock l = none := by
  obtain ⟨h0, hlast, -, hlen⟩ := hmerge
  obtain ⟨e, he⟩ := Nat.exists_eq_succ_of_ne_zero h0.ne'
  have hend := (hm.extent (show e < ehEntries m iBlock by omega)).2.1
  have hsearch : firstBelow e (covers (growExtent m) iBlock l) = firstBelow e (covers m iBlock l) :=
    firstBelow_congr fun k hk => covers_growExtent (by omega)
  have hnew : covers (growExtent m) iBlock l e = false := by
    exact decide_eq_false fun h => absurd h.2 (by omega)
  rw [findExtent_eq, he, firstBelow_succ] at hnone
  rw [findExtent_eq, ehEntries_growExtent, he, firstBelow_succ, hsearch, hnew,
    (or_eq_none_iff.mp (map_eq_none_iff.mp hnone)).1]
  rfl

end Mapping

/-- **Allocating a block of a file** maps it and changes nothing else, or leaves everything as it was,
exactly when it is not the last logical block `2 ^ 32 - 1`, or there is no room for it anyway. -/
theorem extent_allocation_iff (hw : fs.BlocksFit) (h : fs.Consistent s.disk use live)
    (hm : ExtentList m) (hl : l < 2 ^ 32) (hmap : (fs.extentGetBlock m l).exec s = some (0, s)) :
    (∃ ok m' s', (fs.extentAllocateBlocks m l 1).exec s = some ((ok, m'), s') ∧
      fs.BlockAllocated s m l ok m' s') ↔ l + 1 < 2 ^ 32 ∨ ¬fs.RoomFor s.disk m l := by
  have hnone := hm.findExtent_none hmap
  have hundone : ∀ {s' : Ext4Store}, fs.SameBlocks s.disk s'.disk →
      (∀ c : Ext4Counts, c.afterAll s'.events = c.afterAll s.events) →
      fs.BlockAllocated s m l false m s' := fun h1 h2 =>
    ⟨nofun, nofun, nofun, fun _ => ⟨rfl, h1, h2⟩⟩
  cases hfind : findBit fs s.disk bgFreeBlocksCount (fs.blockBitmapOf s.disk) fs.blocksPerGroup
    fs.groupsCount 0 with
  | none =>
    have hroom : ¬fs.RoomFor s.disk m l := fun ⟨g, i, hsome, _⟩ => by
      rw [hfind] at hsome
      cases hsome
    exact ⟨fun _ => .inr hroom, fun _ => ⟨false, m, s, exec_noBlock hm l hfind,
      hundone (fun _ => rfl) fun _ => rfl⟩⟩
  | some r =>
    obtain ⟨g, i⟩ := r
    obtain ⟨-, hg, hcount, hi, hbit⟩ := findBit_eq_some hw.bitmap_fits hfind
    rw [Nat.zero_add] at hg
    have ht := h.tablesApart
    have hne := h.blockAt_ne_zero hg hi hbit
    have hlt := hw.blockAt_lt hg hi
    have hiff : fs.RoomFor s.disk m l ↔
        Merges m l (fs.blockAt g i) ∨ ehEntries m iBlock < ehMax m iBlock := by
      refine ⟨fun ⟨g', i', hsome, hor⟩ => ?_, fun hor => ⟨g, i, hfind, hor⟩⟩
      rw [hfind] at hsome
      cases hsome
      exact hor
    by_cases hmerge : Merges m l (fs.blockAt g i)
    · -- the last extent grows
      rw [or_iff_left (not_not.mpr (hiff.mpr (.inl hmerge)))]
      refine ⟨fun ⟨ok, m', s', hexec, hok⟩ => ?_, fun hl' => ⟨true, _, _, exec_grow hm hne hfind hmerge,
        allocated_grow hm hnone hl' hg hi hbit hmerge⟩⟩
      cases hexec.symm.trans (exec_grow hm hne hfind hmerge)
      by_contra hlast
      obtain ⟨g', hg', i', hi', hbit', hget⟩ := hok.mapped rfl
      rw [sameHeader_growExtent.exec_extentGetBlock hm,
        findExtent_growExtent_last hm hnone (by omega) hmerge] at hget
      exact h.blockAt_ne_zero hg' hi' hbit' (congrArg Prod.fst (Option.some.inj hget)).symm
    by_cases hroom : ehEntries m iBlock < ehMax m iBlock
    · -- an extent is added
      rw [or_iff_left (not_not.mpr (hiff.mpr (.inr hroom)))]
      refine ⟨fun ⟨ok, m', s', hexec, hok⟩ => ?_, fun hl' => ⟨true, _, _,
        exec_add hm hne hfind hmerge hroom, allocated_add hm hnone hl' hg hi hbit hlt hroom⟩⟩
      cases hexec.symm.trans (exec_add hm hne hfind hmerge hroom)
      by_contra hlast
      obtain ⟨g', hg', i', hi', hbit', hget⟩ := hok.mapped rfl
      rw [sameHeader_addExtent.exec_extentGetBlock hm,
        findExtent_addExtent_last hnone (by omega) (hroom.trans_le hm.max)] at hget
      exact h.blockAt_ne_zero hg' hi' hbit' (congrArg Prod.fst (Option.some.inj hget)).symm
    · -- the list is full
      have hfull : ¬fs.RoomFor s.disk m l := fun hr => (hiff.mp hr).elim hmerge hroom
      obtain ⟨s', hexec, hs'⟩ := exec_full hm hne hfind
        (ht.congr (takeBlock_step hw.toDescsFit ht hg).locations) hg hi hmerge (not_lt.mp hroom)
      refine ⟨fun _ => .inr hfull, fun _ => ⟨false, m, s', hexec, ?_⟩⟩
      rcases hs' with rfl | rfl
      · exact hundone (fun _ => rfl) fun _ => rfl
      · exact hundone (sameBlocks_give_take hw.toDescsFit ht hg hi hbit hcount) fun c =>
          c.afterAll_give_take (fs.blockAt g i) s.events

/-! ## The small volume -/

/-- An inode with room for four extents and none in it. -/
def emptyList : Mem :=
  ((Mem.writeLE (fun _ => 0) iFlags 4 0x80000).writeLE iBlock 2 extentMagic).writeLE (iBlock + 4) 2 4

theorem emptyList_extentList : ExtentList emptyList := by
  refine ⟨by decide +kernel, by decide +kernel, by decide +kernel, by decide +kernel,
    by decide +kernel, ?_, ?_⟩
  · exact fun e he => absurd he not_mem_nil
  · exact List.Pairwise.nil

theorem emptyList_unmapped (s : Ext4Store) (l : ℕ) :
    (small.extentGetBlock emptyList l).exec s = some (0, s) := by
  rfl

theorem extent_allocation_small : ∃ ok m' s',
    (small.extentAllocateBlocks emptyList 0 1).exec ⟨smallDisk, []⟩ = some ((ok, m'), s') ∧
      small.BlockAllocated ⟨smallDisk, []⟩ emptyList 0 ok m' s' :=
  (extent_allocation_iff small_wellFormed.blocksFit (s := ⟨smallDisk, []⟩) small_consistent
    emptyList_extentList (by norm_num) (emptyList_unmapped _ 0)).mpr (.inl (by norm_num))

/-- **The call returns true and the block is not mapped**: the last logical block of an empty file. -/
theorem last_block_unmapped : small.BlocksFit ∧ small.Consistent smallDisk smallUse smallLive ∧
    ExtentList emptyList ∧
    (small.extentGetBlock emptyList (2 ^ 32 - 1)).exec ⟨smallDisk, []⟩ = some (0, ⟨smallDisk, []⟩) ∧
    ∃ m' s', (small.extentAllocateBlocks emptyList (2 ^ 32 - 1) 1).exec ⟨smallDisk, []⟩ =
        some ((true, m'), s') ∧
      (small.extentGetBlock m' (2 ^ 32 - 1)).exec s' = some (0, s') := by
  have hfind : findBit small smallDisk bgFreeBlocksCount (small.blockBitmapOf smallDisk)
      small.blocksPerGroup small.groupsCount 0 = some (0, 16) := by
    decide +kernel
  refine ⟨small_wellFormed.blocksFit, small_consistent, emptyList_extentList, emptyList_unmapped _ _,
    _, _, exec_add emptyList_extentList (by decide) hfind ?_ (by decide +kernel), ?_⟩
  · intro hmerge
    exact absurd hmerge.1 (by decide +kernel)
  · rfl

end Ext4

end KeonOS
