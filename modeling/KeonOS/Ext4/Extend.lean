import KeonOS.Ext4.Alloc

/-!
# Extending a file

`extent_allocate_blocks` maps one more block of a file: in the last extent, when the new block follows
it, or in a new extent of the inode.

* **`Ext4.exec_extentAllocateBlocks`**: the call fails and leaves the inode as it was, or maps one block
  that was free.
-/

namespace KeonOS

open Option

/-! ## Searching -/

def covers (m : Mem) (a l k : ℕ) : Bool :=
  eeBlock m (entryAt a k) ≤ l ∧ l < (eeBlock m (entryAt a k) + eeLen m (entryAt a k)) % 2 ^ 32

def extentBlock (m : Mem) (a l k : ℕ) : ℕ := eeStart m (entryAt a k) + (l - eeBlock m (entryAt a k))

theorem findExtent_eq (m : Mem) (a l : ℕ) :
    findExtent m a l = (firstBelow (ehEntries m a) (covers m a l)).map (extentBlock m a l) := rfl

namespace Ext4

section Inode

variable {m : Mem} {l b : ℕ}

/-! ## A new extent -/

variable {x n k : ℕ}

theorem addExtent_apply (he : ehEntries m iBlock < 4) (hx : x < 40 ∨ 100 ≤ x) :
    addExtent m l 1 b x = m x := by
  simp only [addExtent, entryAt, iBlock] at he ⊢
  repeat rw [Mem.writeLE_apply_of_notMem (by omega)]

theorem readLE_addExtent (hx : x + n ≤ 42 ∨ 44 ≤ x ∧ x + n ≤ entryAt iBlock (ehEntries m iBlock)) :
    (addExtent m l 1 b).readLE x n = m.readLE x n := by
  simp only [addExtent, entryAt, iBlock] at hx ⊢
  repeat rw [Mem.readLE_writeLE_of_disjoint (by omega)]

theorem ehEntries_addExtent (he : ehEntries m iBlock < 4) :
    ehEntries (addExtent m l 1 b) iBlock = ehEntries m iBlock + 1 := by
  rw [ehEntries, addExtent, Mem.readLE_writeLE, Nat.mod_eq_of_lt (by omega)]

theorem eeBlock_addExtent (hl : l < 2 ^ 32) :
    eeBlock (addExtent m l 1 b) (entryAt iBlock (ehEntries m iBlock)) = l := by
  simp only [eeBlock, addExtent, entryAt, iBlock]
  repeat rw [Mem.readLE_writeLE_of_disjoint (by omega)]
  rw [Mem.readLE_writeLE, Nat.mod_eq_of_lt (by omega)]

theorem eeLen_addExtent : eeLen (addExtent m l 1 b) (entryAt iBlock (ehEntries m iBlock)) = 1 := by
  simp only [eeLen, addExtent, entryAt, iBlock]
  repeat rw [Mem.readLE_writeLE_of_disjoint (by omega)]
  rw [Mem.readLE_writeLE]
  rfl

theorem eeStart_addExtent (hb : b < 2 ^ 48) :
    eeStart (addExtent m l 1 b) (entryAt iBlock (ehEntries m iBlock)) = b := by
  have hlo : (addExtent m l 1 b).readLE (entryAt iBlock (ehEntries m iBlock) + 8) 4 = b % 256 ^ 4 := by
    simp only [addExtent, entryAt, iBlock]
    repeat rw [Mem.readLE_writeLE_of_disjoint (by omega)]
    rw [Mem.readLE_writeLE]
  have hhi : (addExtent m l 1 b).readLE (entryAt iBlock (ehEntries m iBlock) + 6) 2 =
      b / 2 ^ 32 % 256 ^ 2 := by
    simp only [addExtent, entryAt, iBlock]
    rw [Mem.readLE_writeLE_of_disjoint (by omega), Mem.readLE_writeLE]
  rw [eeStart, hlo, hhi]
  omega

theorem extent_addExtent (hk : k < ehEntries m iBlock) :
    eeBlock (addExtent m l 1 b) (entryAt iBlock k) = eeBlock m (entryAt iBlock k) ∧
    eeLen (addExtent m l 1 b) (entryAt iBlock k) = eeLen m (entryAt iBlock k) ∧
    eeStart (addExtent m l 1 b) (entryAt iBlock k) = eeStart m (entryAt iBlock k) := by
  have hread : ∀ x n, entryAt iBlock k ≤ x → x + n ≤ entryAt iBlock k + 12 →
      (addExtent m l 1 b).readLE x n = m.readLE x n := by
    intro x n h1 h2
    refine readLE_addExtent ?_
    simp only [entryAt, iBlock] at *
    omega
  simp only [eeBlock, eeLen, eeStart]
  rw [hread _ _ (by omega) (by omega), hread _ _ (by omega) (by omega),
    hread _ _ (by omega) (by omega), hread _ _ (by omega) (by omega)]
  exact ⟨rfl, rfl, rfl⟩

theorem covers_addExtent (hk : k < ehEntries m iBlock) :
    covers (addExtent m l 1 b) iBlock x k = covers m iBlock x k ∧
      extentBlock (addExtent m l 1 b) iBlock x k = extentBlock m iBlock x k := by
  obtain ⟨h1, h2, h3⟩ := extent_addExtent (l := l) (b := b) hk
  simp only [covers, extentBlock, h1, h2, h3, and_self]

theorem findExtent_addExtent (he : ehEntries m iBlock < 4) (hl : l + 1 < 2 ^ 32) (hb : b < 2 ^ 48)
    (hnone : findExtent m iBlock l = none) (x : ℕ) :
    findExtent (addExtent m l 1 b) iBlock x = if x = l then some b else findExtent m iBlock x := by
  have hsearch : firstBelow (ehEntries m iBlock) (covers (addExtent m l 1 b) iBlock x) =
      firstBelow (ehEntries m iBlock) (covers m iBlock x) :=
    firstBelow_congr fun k hk => (covers_addExtent hk).1
  have hnew : covers (addExtent m l 1 b) iBlock x (ehEntries m iBlock) = decide (x = l) := by
    rw [covers, eeBlock_addExtent (by omega), eeLen_addExtent, Nat.mod_eq_of_lt hl]
    exact decide_eq_decide.mpr ⟨fun h => by omega, fun h => by omega⟩
  rw [findExtent_eq, ehEntries_addExtent he, firstBelow_succ, hsearch, hnew]
  cases hf : firstBelow (ehEntries m iBlock) (covers m iBlock x) with
  | some k =>
    have hx : x ≠ l := by
      rintro rfl
      rw [findExtent_eq, hf] at hnone
      cases hnone
    rw [if_neg hx, findExtent_eq, hf, some_or, map_some, map_some,
      (covers_addExtent (firstBelow_eq_some hf).1).2]
  | none =>
    rw [none_or, findExtent_eq, hf]
    by_cases hx : x = l
    · subst hx
      simp only [decide_true, if_true, map_some, extentBlock,
        eeBlock_addExtent (by omega : x < 2 ^ 32), eeStart_addExtent hb, Nat.sub_self, Nat.add_zero]
    · simp only [hx, decide_false, Bool.false_eq_true, if_false, map_none]

/-! ## A longer last extent -/

/-- The inode with one more block in its last extent. -/
def growExtent (inode : Mem) : Mem :=
  inode.writeLE (lastExtent inode + 4) 2 (eeLen inode (lastExtent inode) + 1)

theorem growExtent_apply (h0 : 0 < ehEntries m iBlock) (he : ehEntries m iBlock ≤ 4)
    (hx : x < 40 ∨ 100 ≤ x) : growExtent m x = m x := by
  simp only [growExtent, lastExtent, entryAt, iBlock] at h0 he ⊢
  rw [Mem.writeLE_apply_of_notMem (by omega)]

theorem readLE_growExtent (hx : x + n ≤ lastExtent m + 4 ∨ lastExtent m + 6 ≤ x) :
    (growExtent m).readLE x n = m.readLE x n := by
  rw [growExtent, Mem.readLE_writeLE_of_disjoint (by omega)]

theorem readLE_growExtent_header (hx : x + n ≤ 52) : (growExtent m).readLE x n = m.readLE x n := by
  refine readLE_growExtent (.inl ?_)
  simp only [lastExtent, entryAt, iBlock]
  omega

theorem ehEntries_growExtent : ehEntries (growExtent m) iBlock = ehEntries m iBlock :=
  readLE_growExtent_header (by norm_num)

theorem extent_growExtent (k : ℕ) :
    eeBlock (growExtent m) (entryAt iBlock k) = eeBlock m (entryAt iBlock k) ∧
    eeStart (growExtent m) (entryAt iBlock k) = eeStart m (entryAt iBlock k) := by
  have hread : ∀ x n, x + n ≤ 4 ∨ 6 ≤ x ∧ x + n ≤ 12 →
      (growExtent m).readLE (entryAt iBlock k + x) n = m.readLE (entryAt iBlock k + x) n := by
    intro x n hx
    refine readLE_growExtent ?_
    simp only [lastExtent, entryAt]
    omega
  simp only [eeBlock, eeStart]
  rw [hread 8 4 (by omega), hread 6 2 (by omega)]
  exact ⟨hread 0 4 (by omega), rfl⟩

theorem eeLen_growExtent (hk : k + 1 < ehEntries m iBlock) :
    eeLen (growExtent m) (entryAt iBlock k) = eeLen m (entryAt iBlock k) := by
  rw [eeLen, readLE_growExtent, eeLen]
  simp only [lastExtent, entryAt]
  omega

theorem eeLen_growExtent_last (hlen : eeLen m (lastExtent m) < 32768) :
    eeLen (growExtent m) (lastExtent m) = eeLen m (lastExtent m) + 1 := by
  rw [eeLen, growExtent, Mem.readLE_writeLE, Nat.mod_eq_of_lt (by omega)]

theorem covers_growExtent (hk : k + 1 < ehEntries m iBlock) :
    covers (growExtent m) iBlock x k = covers m iBlock x k := by
  obtain ⟨h1, -⟩ := extent_growExtent (m := m) k
  simp only [covers, h1, eeLen_growExtent hk]

theorem extentBlock_growExtent (k x : ℕ) :
    extentBlock (growExtent m) iBlock x k = extentBlock m iBlock x k := by
  obtain ⟨h1, h2⟩ := extent_growExtent (m := m) k
  simp only [extentBlock, h1, h2]

theorem findExtent_growExtent (h0 : 0 < ehEntries m iBlock)
    (hl : eeBlock m (lastExtent m) + eeLen m (lastExtent m) + 1 < 2 ^ 32)
    (hlen : eeLen m (lastExtent m) < 32768)
    (hnone : findExtent m iBlock (eeBlock m (lastExtent m) + eeLen m (lastExtent m)) = none) (x : ℕ) :
    findExtent (growExtent m) iBlock x =
      if x = eeBlock m (lastExtent m) + eeLen m (lastExtent m) then
        some (eeStart m (lastExtent m) + eeLen m (lastExtent m))
      else findExtent m iBlock x := by
  obtain ⟨e, he⟩ := Nat.exists_eq_succ_of_ne_zero h0.ne'
  have hlast : lastExtent m = entryAt iBlock e := by rw [lastExtent, he, Nat.succ_sub_one]
  rw [hlast] at hl hlen hnone ⊢
  have hsearch : ∀ x, firstBelow e (covers (growExtent m) iBlock x) = firstBelow e (covers m iBlock x) :=
    fun x => firstBelow_congr fun k hk => covers_growExtent (by omega)
  have hnew : covers (growExtent m) iBlock x e =
      (covers m iBlock x e || decide (x = eeBlock m (entryAt iBlock e) + eeLen m (entryAt iBlock e))) := by
    have hgrow : eeLen (growExtent m) (entryAt iBlock e) = eeLen m (entryAt iBlock e) + 1 := by
      rw [← hlast] at hlen ⊢
      exact eeLen_growExtent_last hlen
    rw [covers, (extent_growExtent e).1, hgrow, covers, Nat.mod_eq_of_lt (by omega),
      Nat.mod_eq_of_lt (by omega), ← Bool.decide_or]
    exact decide_eq_decide.mpr ⟨fun h => by omega, fun h => by omega⟩
  rw [findExtent_eq, ehEntries_growExtent, he, firstBelow_succ, hsearch, hnew, findExtent_eq, he,
    firstBelow_succ]
  by_cases hx : x = eeBlock m (entryAt iBlock e) + eeLen m (entryAt iBlock e)
  · -- nothing mapped the block before
    subst hx
    rw [findExtent_eq, he, firstBelow_succ] at hnone
    have hbefore := or_eq_none_iff.mp (map_eq_none_iff.mp hnone)
    rw [hbefore.1, decide_eq_true rfl, Bool.or_true, if_pos rfl, if_pos rfl, none_or, map_some,
      extentBlock_growExtent, extentBlock, Nat.add_sub_cancel_left]
  · have hblocks : extentBlock (growExtent m) iBlock x = extentBlock m iBlock x := by
      funext k
      exact extentBlock_growExtent k x
    rw [decide_eq_false hx, Bool.or_false, if_neg hx, hblocks]

end Inode

/-! ## The call -/

variable {fs : Ext4} {use : ℕ → BlockUse} {live : ℕ → Prop} {d : ℕ → Mem} {m : Mem} {ino l b : ℕ}

theorem mapOf_of_depth (hu : usesExtents m = true) (hdepth : ehDepth m iBlock = 0) (x : ℕ) :
    fs.mapOf d m x = (findExtent m iBlock x).getD 0 := by
  rw [mapOf, if_pos hu, hdepth, lookupNode]

variable {m' : Mem} {d' : ℕ → Mem} {g i : ℕ}

theorem usesExtents_congr (h : m'.readLE iFlags 4 = m.readLE iFlags 4) :
    usesExtents m' = usesExtents m := by
  rw [usesExtents, h, usesExtents]

theorem Consistent.findExtent_none (h : fs.Consistent d use live) (hok : fs.InodeOk d use ino m)
    (hu : usesExtents m = true) (hdepth : ehDepth m iBlock = 0) (hmap : fs.mapOf d m l = 0) :
    findExtent m iBlock l = none := by
  cases hf : findExtent m iBlock l with
  | none => rfl
  | some p =>
    rw [mapOf_of_depth hu hdepth, hf] at hmap
    obtain rfl : p = 0 := hmap
    have htree := hok.tree hu
    rw [hdepth] at htree
    have := htree.leaf hf
    rw [h.zero] at this
    cases this

theorem update_use (hfree : use b = .free) (u : BlockUse) {c : ℕ} (hc : use c ≠ .free) :
    Function.update use b u c = use c := by
  refine Function.update_of_ne ?_ _ _
  rintro rfl
  exact hc hfree

theorem InodeOk.addExtent (hok : fs.InodeOk d use ino m) (hu : usesExtents m = true)
    (hdepth : ehDepth m iBlock = 0) (he : ehEntries m iBlock < ehMax m iBlock) (hl : l + 1 < 2 ^ 32)
    (hb : b < 2 ^ 48) (hfree : use b = .free) :
    fs.InodeOk d (Function.update use b (.data ino l)) ino (Ext4.addExtent m l 1 b) := by
  obtain ⟨-, hmax⟩ := hok.entries hu
  have he4 : ehEntries m iBlock < 4 := by omega
  have hhead : ∀ x n, x + n ≤ 42 ∨ 44 ≤ x ∧ x + n ≤ 52 →
      (Ext4.addExtent m l 1 b).readLE x n = m.readLE x n := by
    intro x n hx
    refine readLE_addExtent ?_
    simp only [entryAt, iBlock]
    omega
  have hdepth' : ehDepth (Ext4.addExtent m l 1 b) iBlock = 0 :=
    (hhead (iBlock + 6) 2 (by norm_num)).trans hdepth
  have htree := hok.tree hu
  rw [hdepth] at htree
  refine ⟨Mem.slice_eq_self_of_eq hok.short fun x hx =>
    addExtent_apply he4 (.inr (le_trans (by norm_num) hx)), fun _ => ?_, fun _ => ?_, fun _ => ?_⟩
  · exact (hhead iBlock 2 (by norm_num)).trans (hok.magic hu)
  · rw [hdepth']
    intro k hk
    rw [ehEntries_addExtent he4] at hk
    rcases Nat.lt_or_eq_of_le (Nat.le_of_lt_succ hk) with hk | rfl
    · obtain ⟨h1, h2, h3⟩ := extent_addExtent (l := l) (b := b) hk
      obtain ⟨hend, huse⟩ := htree k hk
      rw [h1, h2, h3]
      refine ⟨hend, fun x hx1 hx2 => ?_⟩
      have hdata := huse x hx1 hx2
      rw [update_use hfree _ (by rw [hdata]; exact BlockUse.noConfusion), hdata]
    · rw [eeBlock_addExtent (by omega), eeLen_addExtent, eeStart_addExtent hb]
      refine ⟨hl, fun x hx1 hx2 => ?_⟩
      obtain rfl : x = l := by omega
      rw [Nat.sub_self, Nat.add_zero, Function.update_self]
  · rw [ehEntries_addExtent he4]
    exact ⟨he4, (hhead (iBlock + 4) 2 (by norm_num)).trans_le hmax⟩

theorem InodeOk.growExtent (hok : fs.InodeOk d use ino m) (hu : usesExtents m = true)
    (hdepth : ehDepth m iBlock = 0) (h0 : 0 < ehEntries m iBlock)
    (hl : eeBlock m (lastExtent m) + eeLen m (lastExtent m) + 1 < 2 ^ 32)
    (hlen : eeLen m (lastExtent m) < 32768)
    (hfree : use (eeStart m (lastExtent m) + eeLen m (lastExtent m)) = .free) :
    fs.InodeOk d (Function.update use (eeStart m (lastExtent m) + eeLen m (lastExtent m))
      (.data ino (eeBlock m (lastExtent m) + eeLen m (lastExtent m)))) ino (Ext4.growExtent m) := by
  obtain ⟨he, hmax⟩ := hok.entries hu
  have hhead : ∀ x n, x + n ≤ 52 → (Ext4.growExtent m).readLE x n = m.readLE x n :=
    fun x n => readLE_growExtent_header
  have hdepth' : ehDepth (Ext4.growExtent m) iBlock = 0 :=
    (hhead (iBlock + 6) 2 (by norm_num)).trans hdepth
  have htree := hok.tree hu
  rw [hdepth] at htree
  refine ⟨Mem.slice_eq_self_of_eq hok.short fun x hx =>
    growExtent_apply h0 he (.inr (le_trans (by norm_num) hx)), fun _ => ?_, fun _ => ?_, fun _ => ?_⟩
  · exact (hhead iBlock 2 (by norm_num)).trans (hok.magic hu)
  · rw [hdepth']
    intro k hk
    rw [ehEntries_growExtent] at hk
    obtain ⟨h1, h2⟩ := extent_growExtent (m := m) k
    obtain ⟨hend, huse⟩ := htree k hk
    have hold : ∀ x, eeBlock m (entryAt iBlock k) ≤ x →
        x < eeBlock m (entryAt iBlock k) + eeLen m (entryAt iBlock k) →
        Function.update use (eeStart m (lastExtent m) + eeLen m (lastExtent m))
          (.data ino (eeBlock m (lastExtent m) + eeLen m (lastExtent m)))
          (eeStart m (entryAt iBlock k) + (x - eeBlock m (entryAt iBlock k))) = .data ino x := by
      intro x hx1 hx2
      have hdata := huse x hx1 hx2
      rw [update_use hfree _ (by rw [hdata]; exact BlockUse.noConfusion), hdata]
    rw [h1, h2]
    by_cases hlast : k + 1 < ehEntries m iBlock
    · rw [eeLen_growExtent hlast]
      exact ⟨hend, hold⟩
    have hk' : entryAt iBlock k = lastExtent m := by
      rw [lastExtent, show k = ehEntries m iBlock - 1 by omega]
    rw [hk'] at hold ⊢
    rw [eeLen_growExtent_last hlen]
    refine ⟨hl, fun x hx1 hx2 => ?_⟩
    by_cases hx : x < eeBlock m (lastExtent m) + eeLen m (lastExtent m)
    · exact hold x hx1 hx
    · obtain rfl : x = eeBlock m (lastExtent m) + eeLen m (lastExtent m) := by omega
      rw [Nat.add_sub_cancel_left, Function.update_self]
  · rw [ehEntries_growExtent]
    exact ⟨he, (hhead (iBlock + 4) 2 (by norm_num)).trans_le hmax⟩

/-- The allocator touches the block bitmaps and the descriptors only. -/
structure AllocEffect (fs : Ext4) (use : ℕ → BlockUse) (d d' : ℕ → Mem) : Prop where
  tables : SameTables fs d d'
  keep : ∀ c, (∀ g, use c ≠ .blockBitmap g) → (∀ k, use c ≠ .desc k) → d' c = d c

theorem AllocEffect.refl : AllocEffect fs use d d := ⟨fun _ _ => rfl, fun _ _ _ => rfl⟩

theorem AllocEffect.trans {d'' : ℕ → Mem} (h : AllocEffect fs use d d')
    (h' : AllocEffect fs use d' d'') : AllocEffect fs use d d'' :=
  ⟨fun g hg => (h'.tables g hg).trans (h.tables g hg),
    fun c h1 h2 => (h'.keep c h1 h2).trans (h.keep c h1 h2)⟩

theorem Consistent.allocEffect (h : fs.Consistent d use live) {value : Bool}
    (hg : g < fs.groupsCount) (hs : TableStep fs (fs.blockBitmapOf d g) g i value d d') :
    AllocEffect fs use d d' := by
  refine ⟨hs.locations, fun c h1 h2 => hs.of_use use ?_ ?_⟩
  · rw [h.blockBitmap g hg]
    exact h1 g
  · rw [h.desc g hg]
    exact h2 _

theorem InodeOk.effect {u : BlockUse} (hfree : use b = .free)
    (hok : fs.InodeOk d (Function.update use b u) ino m) (heff : AllocEffect fs use d d') :
    fs.InodeOk d' (Function.update use b u) ino m := by
  refine hok.congr (fun c hc => heff.keep c ?_ ?_) fun _ _ => rfl
  · intro g hg
    rw [update_use hfree _ (by rw [hg]; exact BlockUse.noConfusion), hg] at hc
    cases hc
  · intro k hk
    rw [update_use hfree _ (by rw [hk]; exact BlockUse.noConfusion), hk] at hc
    cases hc

theorem BlocksFit.blockAt_lt (hw : fs.BlocksFit) (hg : g < fs.groupsCount)
    (hi : i < fs.blocksPerGroup) : fs.blockAt g i < 2 ^ 48 := by
  have hmul : (g + 1) * fs.blocksPerGroup ≤ fs.groupsCount * fs.blocksPerGroup :=
    Nat.mul_le_mul_right _ hg
  have hlast := hw.last_block
  rw [Nat.add_mul, Nat.one_mul] at hmul
  rw [blockAt]
  omega

structure Mapped (fs : Ext4) (use : ℕ → BlockUse) (live : ℕ → Prop) (ino l b : ℕ) (m m' : Mem)
    (s s' : Ext4Store) : Prop where
  free : use b = .free
  ne_zero : b ≠ 0
  effect : AllocEffect fs use s.disk s'.disk
  consistent : fs.Consistent s'.disk (Function.update use b (.data ino l)) live
  inode : fs.InodeOk s'.disk (Function.update use b (.data ino l)) ino m'
  map : ∀ x, fs.mapOf s'.disk m' x = if x = l then b else fs.mapOf s.disk m x
  outside : ∀ x, x < 40 ∨ 100 ≤ x → m' x = m x
  events : s'.events = .allocBlock b :: s.events

/-- Nothing has been mapped; a block that was taken has been given back. -/
structure NotMapped (fs : Ext4) (use : ℕ → BlockUse) (live : ℕ → Prop) (s s' : Ext4Store) :
    Prop where
  effect : AllocEffect fs use s.disk s'.disk
  consistent : fs.Consistent s'.disk use live
  events : s'.events = s.events ∨
    ∃ b, use b = .free ∧ s'.events = .freeBlock b :: .allocBlock b :: s.events

variable {s : Ext4Store}

theorem NotMapped.refl (h : fs.Consistent s.disk use live) : NotMapped fs use live s s :=
  ⟨.refl, h, .inl rfl⟩

theorem Consistent.ne_zero (h : fs.Consistent d use live) (hfree : use b = .free) : b ≠ 0 := by
  rintro rfl
  rw [h.zero] at hfree
  cases hfree

theorem mapOf_of_findExtent (hu : usesExtents m = true)
    (hdepth : ehDepth m iBlock = 0) (hu' : usesExtents m' = true) (hdepth' : ehDepth m' iBlock = 0)
    (hf : ∀ x, findExtent m' iBlock x = if x = l then some b else findExtent m iBlock x) (x : ℕ) :
    fs.mapOf d' m' x = if x = l then b else fs.mapOf d m x := by
  rw [mapOf_of_depth hu' hdepth', mapOf_of_depth hu hdepth, hf]
  split_ifs <;> rfl

section Call

variable (hw : fs.BlocksFit) (h : fs.Consistent s.disk use live)
  (hok : fs.InodeOk s.disk use ino m) (hu : usesExtents m = true) (hdepth : ehDepth m iBlock = 0)
  (hl : l + 1 < 2 ^ 32) (hmap : fs.mapOf s.disk m l = 0)

include hw h hok hu hdepth hl hmap

variable {s' : Ext4Store}

theorem mapped_addExtent (he : ehEntries m iBlock < ehMax m iBlock)
    (hg : g < fs.groupsCount) (hi : i < fs.blocksPerGroup) (hfree : use (fs.blockAt g i) = .free)
    (hs : TableStep fs (fs.blockBitmapOf s.disk g) g i true s.disk s'.disk)
    (hev : s'.events = .allocBlock (fs.blockAt g i) :: s.events) :
    Mapped fs use live ino l (fs.blockAt g i) m (Ext4.addExtent m l 1 (fs.blockAt g i)) s s' := by
  have hb := hw.blockAt_lt hg hi
  have heff := h.allocEffect hg hs
  have he4 : ehEntries m iBlock < 4 := lt_of_lt_of_le he (hok.entries hu).2
  have hok' := hok.addExtent hu hdepth he hl hb hfree
  have hhead : ∀ x n, x + n ≤ 42 ∨ 44 ≤ x ∧ x + n ≤ 52 →
      (Ext4.addExtent m l 1 (fs.blockAt g i)).readLE x n = m.readLE x n := by
    intro x n hx
    refine readLE_addExtent ?_
    simp only [entryAt, iBlock]
    omega
  refine ⟨hfree, h.ne_zero hfree, heff, h.alloc hw.toDescsFit hg hi hfree hs _, ?_, ?_,
    fun x hx => addExtent_apply he4 hx, hev⟩
  · exact hok'.effect hfree heff
  · exact mapOf_of_findExtent hu hdepth ((usesExtents_congr (hhead iFlags 4 (by norm_num))).trans hu)
      ((hhead (iBlock + 6) 2 (by norm_num)).trans hdepth)
      (findExtent_addExtent he4 hl hb (h.findExtent_none hok hu hdepth hmap))

theorem mapped_growExtent (h0 : 0 < ehEntries m iBlock)
    (hlast : l = eeBlock m (lastExtent m) + eeLen m (lastExtent m))
    (hlen : eeLen m (lastExtent m) < 32768)
    (hg : g < fs.groupsCount) (hi : i < fs.blocksPerGroup) (hfree : use (fs.blockAt g i) = .free)
    (hnext : fs.blockAt g i = eeStart m (lastExtent m) + eeLen m (lastExtent m))
    (hs : TableStep fs (fs.blockBitmapOf s.disk g) g i true s.disk s'.disk)
    (hev : s'.events = .allocBlock (fs.blockAt g i) :: s.events) :
    Mapped fs use live ino l (fs.blockAt g i) m (Ext4.growExtent m) s s' := by
  have heff := h.allocEffect hg hs
  have hnone := h.findExtent_none hok hu hdepth hmap
  have hcons := h.alloc hw.toDescsFit hg hi hfree hs (.data ino l)
  have hzero := h.ne_zero hfree
  rw [hlast] at hl hnone
  rw [hnext] at hfree hev hcons hzero ⊢
  have hok' := hok.growExtent hu hdepth h0 hl hlen hfree
  have hhead : ∀ x n, x + n ≤ 52 → (Ext4.growExtent m).readLE x n = m.readLE x n :=
    fun x n => readLE_growExtent_header
  refine ⟨hfree, hzero, heff, hcons, ?_, ?_,
    fun x hx => growExtent_apply h0 (hok.entries hu).1 hx, hev⟩
  · rw [hlast]
    exact hok'.effect hfree heff
  · rw [hlast]
    exact mapOf_of_findExtent hu hdepth ((usesExtents_congr (hhead iFlags 4 (by norm_num))).trans hu)
      ((hhead (iBlock + 6) 2 (by norm_num)).trans hdepth)
      (findExtent_growExtent h0 hl hlen hnone)

end Call

theorem notMapped_free (hw : fs.BlocksFit) (h : fs.Consistent s.disk use live)
    {s₁ : Ext4Store} (hg : g < fs.groupsCount) (hi : i < fs.blocksPerGroup)
    (hfree : use (fs.blockAt g i) = .free)
    (hs : TableStep fs (fs.blockBitmapOf s.disk g) g i true s.disk s₁.disk)
    (hev : s₁.events = .allocBlock (fs.blockAt g i) :: s.events) :
    ∃ s', (fs.freeBlock (fs.blockAt g i)).exec s₁ = some ((), s') ∧ NotMapped fs use live s s' := by
  have h₁ := h.release hw.toDescsFit hg hi hfree hs
  obtain ⟨s', hexec, hs', hev'⟩ := exec_freeBlock hw.toDescsFit h₁ hg hi
  refine ⟨s', hexec, (h.allocEffect hg hs).trans (h₁.allocEffect hg hs'),
    h₁.release hw.toDescsFit hg hi hfree hs', .inr ⟨_, hfree, ?_⟩⟩
  rw [hev', hev]

theorem exec_extentAllocateBlocks (hw : fs.BlocksFit) (h : fs.Consistent s.disk use live)
    (hok : fs.InodeOk s.disk use ino m) (hl : l + 1 < 2 ^ 32) (hmap : fs.mapOf s.disk m l = 0) :
    (∃ s', (fs.extentAllocateBlocks m l 1).exec s = some ((false, m), s') ∧ NotMapped fs use live s s') ∨
    ∃ b m' s', (fs.extentAllocateBlocks m l 1).exec s = some ((true, m'), s') ∧
      Mapped fs use live ino l b m m' s s' := by
  have hfail : NotMapped fs use live s s := .refl h
  unfold extentAllocateBlocks
  by_cases hu : usesExtents m = true
  case neg =>
    rw [if_pos hu]
    exact .inl ⟨s, rfl, hfail⟩
  by_cases hdepth : ehDepth m iBlock = 0
  case neg =>
    rw [if_neg (not_not.mpr hu), if_pos hdepth]
    exact .inl ⟨s, rfl, hfail⟩
  rw [if_neg (not_not.mpr hu), if_neg (not_not.mpr hdepth)]
  by_cases hlast : 0 < ehEntries m iBlock ∧
      l = (eeBlock m (lastExtent m) + eeLen m (lastExtent m)) % 2 ^ 32
  · -- the block follows the last extent of the file
    have htree := hok.tree hu
    rw [hdepth] at htree
    have hend := (htree (ehEntries m iBlock - 1) (Nat.sub_lt hlast.1 Nat.one_pos)).1
    have hlast' : l = eeBlock m (lastExtent m) + eeLen m (lastExtent m) :=
      hlast.2.trans (Nat.mod_eq_of_lt hend)
    rw [if_pos hlast, BlockM.exec_bind]
    rcases exec_allocateBlock hw.toDescsFit h with hnone | ⟨g, i, s₁, hg, hi, hfree, hexec, hs, hev⟩
    · rw [hnone]
      exact .inl ⟨s, rfl, hfail⟩
    rw [hexec, bind_some, if_neg (h.ne_zero hfree)]
    by_cases hgrow : fs.blockAt g i = eeStart m (lastExtent m) + eeLen m (lastExtent m) ∧
        eeLen m (lastExtent m) < 32768
    · rw [if_pos hgrow]
      exact .inr ⟨_, _, s₁, rfl, mapped_growExtent hw h hok hu hdepth hl hmap hlast.1 hlast'
        hgrow.2 hg hi hfree hgrow.1 hs hev⟩
    by_cases hfull : ehMax m iBlock ≤ ehEntries m iBlock
    · obtain ⟨s', hfree', hnot⟩ := notMapped_free hw h hg hi hfree hs hev
      rw [if_neg hgrow, if_pos hfull, BlockM.exec_bind, hfree']
      exact .inl ⟨s', rfl, hnot⟩
    · rw [if_neg hgrow, if_neg hfull]
      exact .inr ⟨_, _, s₁, rfl, mapped_addExtent hw h hok hu hdepth hl hmap (not_le.mp hfull) hg hi
        hfree hs hev⟩
  · rw [if_neg hlast]
    by_cases hfull : ehMax m iBlock ≤ ehEntries m iBlock
    · rw [if_pos hfull]
      exact .inl ⟨s, rfl, hfail⟩
    rw [if_neg hfull, BlockM.exec_bind]
    rcases exec_allocateBlock hw.toDescsFit h with hnone | ⟨g, i, s₁, hg, hi, hfree, hexec, hs, hev⟩
    · rw [hnone]
      exact .inl ⟨s, rfl, hfail⟩
    · rw [hexec, bind_some, if_neg (h.ne_zero hfree)]
      exact .inr ⟨_, _, s₁, rfl, mapped_addExtent hw h hok hu hdepth hl hmap (not_le.mp hfull) hg hi
        hfree hs hev⟩

end Ext4

end KeonOS
