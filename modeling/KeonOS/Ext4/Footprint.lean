import KeonOS.Ext4.Runs
import KeonOS.Lib.WriteAhead

/-!
# The blocks that the calls use

A file `j` that no directory names and for which there is no object, such as the journal: no call reads or
writes its blocks, and none moves them.

* `Ext4.Hidden`, **`Ext4.visits_run`**: no run of the calls comes to the file.
-/

namespace KeonOS

open List BlockM

namespace Ext4

def fileBlocks (use : ℕ → BlockUse) (j : ℕ) : Set ℕ := { b | ∃ l, use b = .data j l }

structure KeepsFile (fs : Ext4) (d : ℕ → Mem) (use : ℕ → BlockUse) (j b : ℕ) (v : Mem) : Prop where
  desc : ∀ g < fs.groupsCount, b = fs.descBlock g →
    descLocations (fs.descOffset g) v = descLocations (fs.descOffset g) (d b)
  inode : b = fs.inodePlace d j → v.slice (fs.inodeOffset j) inodeBytes = fs.inodeOf d j
  tree : use b = .tree j → v = d b

def Clear (fs : Ext4) (d : ℕ → Mem) (use : ℕ → BlockUse) (j : ℕ) (step : BlockStep ℕ Mem) : Prop :=
  step.Apart (fileBlocks use j) (fs.KeepsFile d use j)

/-- On the volume `d` file `j` is where it was on `d₀`. -/
structure Guarded (fs : Ext4) (d₀ : ℕ → Mem) (use₀ : ℕ → BlockUse) (j : ℕ) (use : ℕ → BlockUse)
    (live : ℕ → Prop) (d : ℕ → Mem) : Prop where
  consistent : fs.Consistent d use live
  isLive : live j
  tables : SameTables fs d₀ d
  inode : fs.inodeOf d j = fs.inodeOf d₀ j
  data : ∀ b l, use₀ b = .data j l → use b = .data j l
  trees : ∀ b, use₀ b = .tree j → use b = .tree j ∧ d b = d₀ b

variable {fs : Ext4} {d₀ : ℕ → Mem} {use₀ : ℕ → BlockUse} {j : ℕ} {use : ℕ → BlockUse}
  {live : ℕ → Prop} {d d' : ℕ → Mem} {b : ℕ} {v m : Mem} {s s' : Ext4Store} {ino l : ℕ}

namespace Guarded

variable (h : Guarded fs d₀ use₀ j use live d)
include h

omit h in
theorem init (h : fs.Consistent d use live) (hj : live j) : Guarded fs d use j use live d :=
  ⟨h, hj, .refl, rfl, fun _ _ => id, fun _ hb => ⟨hb, rfl⟩⟩

theorem step {use' : ℕ → BlockUse} {live' : ℕ → Prop}
    (hcons : fs.Consistent d' use' live') (hlive : live' j) (htab : SameTables fs d d')
    (hinode : fs.inodeOf d' j = fs.inodeOf d j) (huse : ∀ b, use b ≠ .free → use' b = use b)
    (htree : ∀ b, use b = .tree j → d' b = d b) : Guarded fs d₀ use₀ j use' live' d' := by
  refine ⟨hcons, hlive, h.tables.trans htab, hinode.trans h.inode, fun b l hb => ?_, fun b hb => ?_⟩
  · have hdata := h.data b l hb
    rw [huse b (by rw [hdata]; exact BlockUse.noConfusion), hdata]
  · obtain ⟨htr, hd⟩ := h.trees b hb
    exact ⟨by rw [huse b (by rw [htr]; exact BlockUse.noConfusion), htr], (htree b htr).trans hd⟩

theorem effect {use' : ℕ → BlockUse}
    (hcons : fs.Consistent d' use' live) (heff : AllocEffect fs use d d')
    (huse : ∀ b, use b ≠ .free → use' b = use b) : Guarded fs d₀ use₀ j use' live d' := by
  obtain ⟨h0, hg⟩ := h.consistent.live_pos j h.isLive
  refine h.step hcons h.isLive heff.tables (h.consistent.inodeOf_eq heff.tables (fun b g k hb => ?_) h0 hg)
    huse fun b hb => ?_
  · exact heff.keep b (fun g' => by rw [hb]; exact BlockUse.noConfusion)
      fun k' => by rw [hb]; exact BlockUse.noConfusion
  · exact heff.keep b (fun g' => by rw [hb]; exact BlockUse.noConfusion)
      fun k' => by rw [hb]; exact BlockUse.noConfusion

theorem put (hb : use b = .data ino l) : Guarded fs d₀ use₀ j use live (Function.update d b v) := by
  obtain ⟨h0, hg⟩ := h.consistent.live_pos j h.isLive
  have htable : (use b).isTable = false := by rw [hb]; rfl
  refine h.step (h.consistent.put (.inr ⟨ino, l, hb⟩)) h.isLive (h.consistent.sameTables_put htable)
    (h.consistent.inodeOf_put htable h0 hg) (fun _ _ => rfl) fun c hc => Function.update_of_ne ?_ _ _
  rintro rfl
  rw [hb] at hc
  cases hc

/-! ## Single steps -/

theorem notMem (hb : ∀ l, use b ≠ .data j l) : b ∉ fileBlocks use₀ j := by
  rintro ⟨l, hl⟩
  exact hb l (h.data b l hl)

theorem keepsFile (hdesc : ∀ k, use b ≠ .desc k)
    (hinode : ∀ g k, use b ≠ .inodeTable g k) (htree : use b ≠ .tree j) :
    fs.KeepsFile d₀ use₀ j b v := by
  obtain ⟨h0, hg⟩ := h.consistent.live_pos j h.isLive
  refine ⟨fun g hg' heq => ?_, fun heq => ?_, fun htr => absurd (h.trees b htr).1 htree⟩
  · rw [heq] at hdesc
    exact absurd (h.consistent.desc g hg') (hdesc _)
  · rw [← h.tables.inodePlace hg] at heq
    rw [heq] at hinode
    exact absurd (h.consistent.inodeTable j h0 hg) (hinode _ _)

theorem keepsFile_disk (b : ℕ) : fs.KeepsFile d₀ use₀ j b (d b) := by
  obtain ⟨h0, hg⟩ := h.consistent.live_pos j h.isLive
  refine ⟨fun g hg' heq => ?_, fun heq => ?_, fun htr => (h.trees b htr).2⟩
  · rw [heq]
    exact h.tables g hg'
  · rw [heq, ← h.tables.inodePlace hg]
    exact h.inode

theorem clear_data (hb : use b = .data ino l) (hne : ino ≠ j) : fs.Clear d₀ use₀ j (.log b v) := by
  refine ⟨h.notMem fun x => ?_, h.keepsFile (fun k => ?_) (fun g k => ?_) ?_⟩
  · rw [hb]
    exact fun heq => hne (BlockUse.data.inj heq).1
  all_goals rw [hb]; exact BlockUse.noConfusion

end Guarded

theorem InodeOk.mapped_ne (hok : fs.InodeOk d use ino m) (hne : ino ≠ j) (hl : fs.mapOf d m l ≠ 0)
    (x : ℕ) : use (fs.mapOf d m l) ≠ .data j x := by
  rw [hok.use_mapOf hl]
  exact fun heq => hne (BlockUse.data.inj heq).1

variable {fuel offset : ℕ} {α : Type}

section Visits

variable (h : Guarded fs d₀ use₀ j use live s.disk)
include h

theorem visits_readBlock (hb : ∀ l, use b ≠ .data j l) :
    (fs.readBlock b).Visits (fs.Clear d₀ use₀ j) s :=
  visits_readPart (h.notMem hb)

variable {g logical a n : ℕ} {gd : Mem}

theorem visits_readLocations (hg : g < fs.groupsCount) :
    (fs.readLocations g).Visits (fs.Clear d₀ use₀ j) s := by
  refine visits_readPart (h.notMem fun l => ?_)
  rw [h.consistent.desc g hg]
  exact BlockUse.noConfusion

theorem visits_readGroupDesc (hg : g < fs.groupsCount) (s₁ : Ext4Store) :
    (fs.readGroupDesc g).Visits (fs.Clear d₀ use₀ j) s₁ := by
  refine visits_readPart (h.notMem fun l => ?_)
  rw [h.consistent.desc g hg]
  exact BlockUse.noConfusion

theorem visits_readInode (h0 : 0 < ino) (hg : fs.inodeGroup ino < fs.groupsCount) :
    (fs.readInode ino).Visits (fs.Clear d₀ use₀ j) s := by
  refine (visits_readLocations h hg).bind rfl (visits_readPart (h.notMem fun l => ?_))
  have huse := h.consistent.inodeTable ino h0 hg
  rw [inodePlace, inodeTableOf] at huse
  rw [huse]
  exact BlockUse.noConfusion

theorem visits_openNode (isDir : Bool) (h0 : 0 < ino) (hg : fs.inodeGroup ino < fs.groupsCount) :
    (fs.openNode isDir ino).Visits (fs.Clear d₀ use₀ j) s :=
  (visits_readInode h h0 hg).bind rfl (visits_pure _)

theorem visits_writeInode (hw : fs.WellFormed) (h0 : 0 < ino) (hg : fs.inodeGroup ino < fs.groupsCount)
    (hne : ino ≠ j) (m : Mem) : (fs.writeInode ino m).Visits (fs.Clear d₀ use₀ j) s := by
  have huse := h.consistent.inodeTable ino h0 hg
  have hread : ∀ l, use (fs.inodePlace s.disk ino) ≠ .data j l := by
    intro l
    rw [huse]
    exact BlockUse.noConfusion
  obtain ⟨hj0, hjg⟩ := h.consistent.live_pos j h.isLive
  refine (visits_readLocations h hg).bind rfl ((visits_readBlock h hread).bind rfl
    (visits_writeNow ⟨h.notMem hread, ?_, fun heq => ?_, fun htr => ?_⟩))
  · intro g hg' heq
    have hdesc := h.consistent.desc g hg'
    rw [← heq] at hdesc
    exact absurd (huse.symm.trans hdesc) BlockUse.noConfusion
  · -- the inode of the file lies elsewhere in the block
    change fs.inodePlace s.disk ino = _ at heq
    have hother : fs.inodeOf (fs.withInode s.disk ino m) j = fs.inodeOf s.disk j :=
      h.consistent.inodeOf_withInode_of_ne hw h0 hg hj0 hjg hne.symm
    rw [inodeOf, (h.consistent.sameTables_withInode h0 hg).inodePlace hjg, h.tables.inodePlace hjg, ← heq,
      withInode, Function.update_self, h.inode] at hother
    exact hother
  · have htree := (h.trees _ htr).1
    exact absurd (huse.symm.trans htree) BlockUse.noConfusion

theorem visits_extentWalk {depth : ℕ} (hok : fs.TreeOk s.disk use ino depth m a) :
    (fs.extentWalk logical fuel m a depth).Visits (fs.Clear d₀ use₀ j) s := by
  induction fuel generalizing m a depth with
  | zero => trivial
  | succ fuel ih =>
    rw [extentWalk]
    cases depth with
    | zero => exact visits_pure _
    | succ depth =>
      cases hi : findIndex m a logical with
      | none => exact visits_pure _
      | some b =>
        obtain ⟨huse, hmagic, hdepth, htree⟩ := hok.index hi
        refine (visits_readBlock h fun l => ?_).bind rfl ?_
        · rw [huse]
          exact BlockUse.noConfusion
        · rw [if_neg (not_not.mpr hmagic), hdepth]
          exact ih htree

theorem visits_extentGetBlock (hok : fs.InodeOk s.disk use ino m) :
    (fs.extentGetBlock m logical).Visits (fs.Clear d₀ use₀ j) s := by
  unfold extentGetBlock
  by_cases hu : usesExtents m = true
  · rw [if_neg (not_not.mpr hu), if_neg (not_not.mpr (hok.magic hu))]
    exact visits_extentWalk h (hok.tree hu)
  · rw [if_pos hu]
    exact visits_pure _

/-! ## The allocator -/

theorem clear_desc (hw : fs.WellFormed) (hg : g < fs.groupsCount)
    (hgd : ∀ i < groupDescBytes, i < 12 ∨ 18 ≤ i →
      gd i = s.disk (fs.descBlock g) (fs.descOffset g + i)) :
    fs.Clear d₀ use₀ j (.log (fs.descBlock g)
      (((s.disk (fs.descBlock g)).slice 0 fs.blockSize).copy (fs.descOffset g) groupDescBytes gd)) := by
  obtain ⟨h0, hjg⟩ := h.consistent.live_pos j h.isLive
  have huse := h.consistent.desc g hg
  refine ⟨h.notMem fun l => ?_, fun g' hg' heq => ?_, fun heq => ?_, fun htr => ?_⟩
  · rw [huse]
    exact BlockUse.noConfusion
  · rw [descLocations_copy hw.blocksFit.toDescsFit hgd, heq]
    exact h.tables g' hg'
  · rw [← h.tables.inodePlace hjg] at heq
    have htable := h.consistent.inodeTable j h0 hjg
    rw [← heq, huse] at htable
    cases htable
  · have htree := (h.trees _ htr).1
    rw [huse] at htree
    cases htree

theorem clear_bitmap (g : ℕ) (hb : use b = .blockBitmap g ∨ use b = .inodeBitmap g) :
    fs.Clear d₀ use₀ j (.log b v) := by
  refine ⟨h.notMem fun l => ?_, h.keepsFile (fun k => ?_) (fun g k => ?_) ?_⟩
  all_goals rcases hb with hb | hb <;> rw [hb] <;> exact BlockUse.noConfusion

theorem visits_writeGroupDesc (hw : fs.WellFormed) (hg : g < fs.groupsCount) {s₁ : Ext4Store}
    (hs₁ : s₁.disk (fs.descBlock g) = s.disk (fs.descBlock g))
    (hgd : ∀ i < groupDescBytes, i < 12 ∨ 18 ≤ i →
      gd i = s.disk (fs.descBlock g) (fs.descOffset g + i)) :
    (fs.writeGroupDesc g gd).Visits (fs.Clear d₀ use₀ j) s₁ := by
  have hlog := clear_desc h hw hg hgd
  rw [← hs₁] at hlog
  exact ⟨hlog.1, hlog, trivial⟩

theorem visits_allocateBlockFrom (hw : fs.WellFormed) (hg : g + n = fs.groupsCount) :
    (fs.allocateBlockFrom n g).Visits (fs.Clear d₀ use₀ j) s := by
  induction n generalizing g with
  | zero => exact visits_pure _
  | succ n ih =>
    have hlt : g < fs.groupsCount := by omega
    have hbm := h.consistent.blockBitmap g hlt
    have hnext := ih (show g + 1 + n = fs.groupsCount by omega)
    refine (visits_readGroupDesc h hlt s).bind rfl ?_
    split_ifs
    · refine BlockM.Visits.bind (visits_readBlock h fun l => ?_) rfl ?_
      · rw [getBlockBitmap_slice, hbm]
        exact BlockUse.noConfusion
      split
      · refine BlockM.Visits.bind (visits_writeLogged (clear_bitmap h g (.inl ?_))) rfl
          (BlockM.Visits.bind (visits_writeGroupDesc h hw hlt ?_ fun i hi hi' =>
            writeLE_desc (by norm_num) (by norm_num) (fun _ => slice_desc) hi hi') rfl trivial)
        · rw [getBlockBitmap_slice, hbm]
        · refine Store.put_disk_of_ne (Ne.symm ?_)
          exact h.consistent.bitmap_ne_desc hlt hlt
      · exact hnext
    · exact hnext

theorem visits_allocateBlock (hw : fs.WellFormed) : fs.allocateBlock.Visits (fs.Clear d₀ use₀ j) s :=
  visits_allocateBlockFrom h hw (Nat.zero_add _)

theorem visits_allocateInodeFrom (hw : fs.WellFormed) (isDirectory : Bool)
    (hg : g + n = fs.groupsCount) :
    (fs.allocateInodeFrom isDirectory n g).Visits (fs.Clear d₀ use₀ j) s := by
  induction n generalizing g with
  | zero => exact visits_pure _
  | succ n ih =>
    have hlt : g < fs.groupsCount := by omega
    have hbm := h.consistent.inodeBitmap g hlt
    have hnext := ih (show g + 1 + n = fs.groupsCount by omega)
    refine (visits_readGroupDesc h hlt s).bind rfl ?_
    by_cases hfree : 0 < ((s.disk (fs.descBlock g)).slice (fs.descOffset g) groupDescBytes).readLE
        bgFreeInodesCount 2
    · rw [if_pos hfree]
      refine BlockM.Visits.bind (visits_readBlock h fun l => ?_) rfl ?_
      · rw [getInodeBitmap_slice, hbm]
        exact BlockUse.noConfusion
      split
      · refine BlockM.Visits.bind (visits_writeLogged (clear_bitmap h g (.inr ?_))) rfl
          (BlockM.Visits.bind (visits_writeGroupDesc h hw hlt ?_ fun i hi hi' => ?_) rfl trivial)
        · rw [getInodeBitmap_slice, hbm]
        · refine Store.put_disk_of_ne (Ne.symm ?_)
          exact h.consistent.inodeBitmap_ne_desc hlt hlt
        have hcount := fun v i => writeLE_desc (j := i) (v := v) (p := bgFreeInodesCount)
          (by norm_num) (by norm_num) fun _ => slice_desc (m := s.disk (fs.descBlock g))
            (a := fs.descOffset g)
        cases isDirectory
        · exact hcount _ i hi hi'
        · exact writeLE_desc (by norm_num) (by norm_num) (hcount _) hi hi'
      · exact hnext
    · rwa [if_neg hfree]

theorem visits_allocateInode (hw : fs.WellFormed) (isDirectory : Bool) :
    (fs.allocateInode isDirectory).Visits (fs.Clear d₀ use₀ j) s :=
  visits_allocateInodeFrom h hw isDirectory (Nat.zero_add _)

theorem visits_freeBlock (hw : fs.WellFormed) {i : ℕ} (hg : g < fs.groupsCount)
    (hi : i < fs.blocksPerGroup) :
    (fs.freeBlock (fs.blockAt g i)).Visits (fs.Clear d₀ use₀ j) s := by
  have hbm := h.consistent.blockBitmap g hg
  have hne := h.consistent.bitmap_ne_desc hg hg
  have hread : ∀ l, use (fs.blockBitmapOf s.disk g) ≠ .data j l := by
    intro l
    rw [hbm]
    exact BlockUse.noConfusion
  simp only [freeBlock, blockAt_div hi]
  refine BlockM.Visits.bind (BlockM.Visits.bind (visits_readLocations h hg) rfl
    (BlockM.Visits.bind (visits_readBlock h hread) rfl
      (visits_writeLogged (clear_bitmap h g (.inl hbm))))) rfl ?_
  have hdisk : ∀ v, (s.put (fs.blockBitmapOf s.disk g) v).disk (fs.descBlock g) =
      s.disk (fs.descBlock g) := fun v => Store.put_disk_of_ne (Ne.symm hne)
  refine BlockM.Visits.bind (visits_readGroupDesc h hg _) rfl
    (BlockM.Visits.bind (visits_writeGroupDesc h hw hg (hdisk _) fun k hk hk' => ?_) rfl trivial)
  refine writeLE_desc (by norm_num) (by norm_num) (fun k hk hk' => ?_) hk hk'
  change Mem.slice ((s.put (fs.blockBitmapOf s.disk g) _).disk (fs.descBlock g)) _ _ k = _
  rw [hdisk, slice_desc hk hk']

/-! ## Extending a file -/

theorem visits_allocate_then (hw : fs.WellFormed) {f : ℕ → Ext4M α}
    (h0 : (f 0).Visits (fs.Clear d₀ use₀ j) s)
    (hf : ∀ g i s', g < fs.groupsCount → i < fs.blocksPerGroup →
      Guarded fs d₀ use₀ j use live s'.disk → (f (fs.blockAt g i)).Visits (fs.Clear d₀ use₀ j) s') :
    (fs.allocateBlock >>= f).Visits (fs.Clear d₀ use₀ j) s := by
  rcases exec_allocateBlock hw.blocksFit.toDescsFit h.consistent with
    hnone | ⟨g, i, s', hg, hi, hfree, hexec, hs, -⟩
  · exact (visits_allocateBlock h hw).bind hnone h0
  · refine (visits_allocateBlock h hw).bind hexec (hf g i s' hg hi ?_)
    exact h.effect (h.consistent.release hw.blocksFit.toDescsFit hg hi hfree hs)
      (h.consistent.allocEffect hg hs) fun _ _ => rfl

theorem visits_extentAllocateBlocks (hw : fs.WellFormed) (logical count : ℕ) :
    (fs.extentAllocateBlocks m logical count).Visits (fs.Clear d₀ use₀ j) s := by
  unfold extentAllocateBlocks
  by_cases hu : usesExtents m = true
  case neg =>
    rw [if_pos hu]
    exact visits_pure _
  by_cases hdepth : ehDepth m iBlock = 0
  case neg =>
    rw [if_neg (not_not.mpr hu), if_pos hdepth]
    exact visits_pure _
  rw [if_neg (not_not.mpr hu), if_neg (not_not.mpr hdepth)]
  by_cases hlast : 0 < ehEntries m iBlock ∧
      logical = (eeBlock m (lastExtent m) + eeLen m (lastExtent m)) % 2 ^ 32
  · rw [if_pos hlast]
    refine visits_allocate_then h hw ?_ fun g i s' hg hi h' => ?_
    · exact visits_pure _
    split_ifs
    · exact visits_pure _
    · exact visits_pure _
    · refine (visits_bind _ _ _).mpr ⟨visits_freeBlock h' hw hg hi, fun _ _ => ?_⟩
      exact visits_pure _
    · exact visits_pure _
  · rw [if_neg hlast]
    split_ifs
    · exact visits_pure _
    · refine visits_allocate_then h hw ?_ fun g i s' hg hi h' => ?_
      · exact visits_pure _
      · split_ifs <;> exact visits_pure _

/-! ## Files -/

theorem visits_readLoop (hok : fs.InodeOk s.disk use ino m) (hne : ino ≠ j)
    {size done : ℕ} :
    (fs.readLoop m offset size fuel done).Visits (fs.Clear d₀ use₀ j) s := by
  induction fuel generalizing done with
  | zero => trivial
  | succ fuel ih =>
    rw [readLoop]
    by_cases hend : size ≤ done
    · rw [if_pos hend]
      exact visits_pure _
    rw [if_neg hend]
    refine (visits_extentGetBlock h hok).bind (exec_extentGetBlock hok) ?_
    refine (visits_bind _ _ _).mpr ⟨?_, fun r hr => ?_⟩
    · rw [readPiece]
      split_ifs with h0
      · exact visits_pure _
      · exact (visits_readBlock h (hok.mapped_ne hne h0)).bind rfl (visits_pure _)
    -- nothing is written
    have hs : r.2 = s := by
      rw [readPiece] at hr
      split_ifs at hr <;> exact (congrArg Prod.snd (Option.some.inj hr)).symm
    rw [hs]
    exact (visits_bind _ _ _).mpr ⟨ih, fun _ _ => visits_pure _⟩

theorem visits_mapBlock (hw : fs.WellFormed) (hok : fs.InodeOk s.disk use ino m) (hl : l + 1 < 2 ^ 32) :
    (fs.mapBlock m l).Visits (fs.Clear d₀ use₀ j) s := by
  refine (visits_extentGetBlock h hok).bind (exec_extentGetBlock hok) ?_
  by_cases hmap : fs.mapOf s.disk m l = 0
  · rw [if_neg (not_not.mpr hmap)]
    rcases exec_extentAllocateBlocks hw.blocksFit h.consistent hok hl hmap with
      ⟨s', hexec, -⟩ | ⟨b, m', s', hexec, hm⟩
    · exact (visits_extentAllocateBlocks h hw l 1).bind hexec (visits_pure _)
    · refine (visits_extentAllocateBlocks h hw l 1).bind hexec ?_
      have h' := h.effect hm.consistent hm.effect fun c hc => update_use hm.free _ hc
      exact (visits_extentGetBlock h' hm.inode).bind (exec_extentGetBlock hm.inode) (visits_pure _)
  · rw [if_pos hmap]
    exact visits_pure _

theorem visits_writePiece {data : Mem} (hb : use b = .data ino l) (hne : ino ≠ j) :
    (fs.writePiece b a n data).Visits (fs.Clear d₀ use₀ j) s := by
  have hlog : ∀ v, fs.Clear d₀ use₀ j (.log b v) := fun v => h.clear_data hb hne
  rw [writePiece]
  split_ifs
  · refine (visits_readBlock h fun x => ?_).bind rfl (visits_writeLogged (hlog _))
    rw [hb]
    exact fun heq => hne (BlockUse.data.inj heq).1
  · exact visits_writeLogged (hlog _)

end Visits

section Write

variable {offset : ℕ} {data : List UInt8} {s₀ : Ext4Store} {use' : ℕ → BlockUse} {m₀ : Mem} {done : ℕ}

theorem Guarded.writeInv (h : Guarded fs d₀ use₀ j use live s₀.disk)
    (hinv : WriteInv fs live ino offset data use m₀ s₀ done use' m s) :
    Guarded fs d₀ use₀ j use' live s.disk := by
  obtain ⟨h0, hg⟩ := h.consistent.live_pos j h.isLive
  refine h.step hinv.consistent h.isLive hinv.tables
    (h.consistent.inodeOf_eq hinv.tables (fun b g k hb => hinv.keep b ?_ ?_ ?_ ?_) h0 hg) hinv.uses
    fun b hb => hinv.keep b ?_ ?_ ?_ ?_
  all_goals simp [hb]

theorem visits_writeLoop (hw : fs.WellFormed) (h : Guarded fs d₀ use₀ j use live s₀.disk) (hne : ino ≠ j)
    (hinv : WriteInv fs live ino offset data use m₀ s₀ done use' m s) :
    (fs.writeLoop offset data fuel done m).Visits (fs.Clear d₀ use₀ j) s := by
  have hbs : 1 < fs.blockSize := lt_of_lt_of_le (by norm_num) hw.desc_fits
  induction fuel generalizing done m s use' with
  | zero => trivial
  | succ fuel ih =>
    rw [writeLoop]
    by_cases hend : data.length ≤ done
    · rw [if_pos hend]
      exact visits_pure _
    rw [if_neg hend]
    have hcur : offset + data.length < 2 ^ 32 → (offset + done) % 2 ^ 32 = offset + done :=
      fun hlt => Nat.mod_eq_of_lt (by omega)
    have hlt : (offset + done) % 2 ^ 32 < 2 ^ 32 := Nat.mod_lt _ (by norm_num)
    generalize (offset + done) % 2 ^ 32 = cur at hcur hlt ⊢
    have hmod := Nat.mod_lt cur (Nat.zero_lt_of_lt hbs)
    have hl : cur / fs.blockSize + 1 < 2 ^ 32 := by
      have := Nat.div_le_div_left (c := 2) hbs (a := cur) (by norm_num)
      omega
    have hvis := visits_mapBlock (h.writeInv hinv) hw hinv.inode hl
    rcases exec_mapBlock hw hinv.consistent hinv.inode hl with
      ⟨s', hexec, -⟩ | ⟨p, m', s', use'', hexec, hr⟩
    · exact hvis.bind hexec (visits_pure _)
    refine hvis.bind hexec ?_
    rw [if_neg hr.ne_zero]
    have h' := (h.writeInv hinv).effect hr.consistent hr.effect hr.uses
    have hup : use'' p = .data ino (cur / fs.blockSize) := by
      have hmapp : fs.mapOf s'.disk m' (cur / fs.blockSize) = p := by rw [hr.map, if_pos rfl]
      have hu := hr.inode.use_mapOf (hmapp.trans_ne hr.ne_zero)
      rwa [hmapp] at hu
    generalize hto : min (fs.blockSize - cur % fs.blockSize) (data.length - done) = n
    obtain ⟨v, hpiece, hv⟩ := exec_writePiece s' p (Mem.ofBytes (data.drop done))
      (show cur % fs.blockSize + n ≤ fs.blockSize by omega)
    exact (visits_writePiece h' hup hne).bind hpiece
      (ih (hinv.step (Nat.zero_lt_of_lt hbs) hcur hr (by omega) hv))

variable {f : Ext4Node}

theorem visits_write (hw : fs.WellFormed) (h : Guarded fs d₀ use₀ j use live s.disk)
    (hlive : live f.ino) (hok : fs.InodeOk s.disk use f.ino f.inode) (hne : f.ino ≠ j) (offset : ℕ)
    (data : List UInt8) : (fs.write f offset data).Visits (fs.Clear d₀ use₀ j) s := by
  obtain ⟨h0, hg⟩ := h.consistent.live_pos f.ino hlive
  have hinit := WriteInv.init offset data h.consistent hok
  obtain ⟨n, m, s₁, use', hexec, -, hinv⟩ := exec_writeLoop (data.length + 1) hw (by omega)
    (Nat.zero_le _) hinit
  refine (visits_writeLoop hw h hne hinit).bind hexec ?_
  refine (visits_bind _ _ _).mpr ⟨?_, fun _ _ => visits_pure _⟩
  rw [afterWrite_ino]
  exact visits_writeInode (h.writeInv hinv) hw h0 hg hne _

theorem visits_read (h : Guarded fs d₀ use₀ j use live s.disk)
    (hok : fs.InodeOk s.disk use f.ino f.inode) (hne : f.ino ≠ j) (offset size : ℕ) :
    (fs.read f offset size).Visits (fs.Clear d₀ use₀ j) s := by
  rw [read]
  split_ifs
  · exact visits_pure _
  · exact visits_readLoop h hok hne
  · exact visits_readLoop h hok hne

end Write

/-! ## Directories -/

namespace Guarded

theorem inodeTaken (h : Guarded fs d₀ use₀ j use live s.disk) (ht : InodeTaken fs use live ino s s') :
    Guarded fs d₀ use₀ j use live s'.disk := by
  obtain ⟨h0, hg⟩ := h.consistent.live_pos j h.isLive
  refine h.step ht.consistent h.isLive ht.tables (ht.inodes j h0 hg) (fun _ _ => rfl)
    fun b hb => ht.blocks b ?_
  rw [hb]
  rfl

theorem blockTaken (h : Guarded fs d₀ use₀ j use live s.disk) {u : BlockUse}
    (ht : BlockTaken fs use live b u s s') :
    Guarded fs d₀ use₀ j (Function.update use b u) live s'.disk := by
  obtain ⟨h0, hg⟩ := h.consistent.live_pos j h.isLive
  refine h.step ht.consistent h.isLive ht.tables (ht.inodes j h0 hg) (fun c hc => update_use ht.free u hc)
    fun c hc => ht.blocks c ?_
  rw [hc]
  rfl

theorem withInode (hw : fs.WellFormed) (h : Guarded fs d₀ use₀ j use live d) (h0 : 0 < ino)
    (hg : fs.inodeGroup ino < fs.groupsCount) (hok : fs.InodeOk d use ino m) (hne : ino ≠ j) :
    Guarded fs d₀ use₀ j use (fun i => live i ∨ i = ino) (fs.withInode d ino m) := by
  obtain ⟨hj0, hjg⟩ := h.consistent.live_pos j h.isLive
  refine h.step (h.consistent.write hw h0 hg hok) (.inl h.isLive)
    (h.consistent.sameTables_withInode h0 hg)
    (h.consistent.inodeOf_withInode_of_ne hw h0 hg hj0 hjg hne.symm) (fun _ _ => rfl)
    fun b hb => h.consistent.withInode_block h0 hg ?_
  rw [hb]
  rfl

end Guarded

section Dirs

variable {dir : Ext4Node} {name : List UInt8} (h : Guarded fs d₀ use₀ j use live s.disk)
include h

section Loops

variable (hok : fs.InodeOk s.disk use dir.ino dir.inode) (hne : dir.ino ≠ j)
include hok hne

theorem visits_dirBlock {a : α} {k₀ : Ext4M α} {k : ℕ → Mem → Ext4M α} {x : ℕ}
    (h₀ : k₀.Visits (fs.Clear d₀ use₀ j) s)
    (hk : ∀ b l v, use b = .data dir.ino l → (k b v).Visits (fs.Clear d₀ use₀ j) s) :
    (if dir.size ≤ offset then pure a
      else do
        let physical ← fs.extentGetBlock dir.inode x
        if physical = 0 then k₀
        else do
          let buffer ← fs.readBlock physical
          k physical buffer : Ext4M α).Visits (fs.Clear d₀ use₀ j) s := by
  by_cases hend : dir.size ≤ offset
  · rw [if_pos hend]
    exact visits_pure _
  rw [if_neg hend]
  refine (visits_extentGetBlock h hok).bind (exec_extentGetBlock hok) ?_
  split_ifs with hx
  · exact h₀
  · exact (visits_readBlock h (hok.mapped_ne hne hx)).bind rfl (hk _ _ _ (hok.use_mapOf hx))

theorem visits_finddirLoop : (fs.finddirLoop dir name fuel offset).Visits (fs.Clear d₀ use₀ j) s := by
  induction fuel generalizing offset with
  | zero => trivial
  | succ fuel ih =>
    rw [finddirLoop]
    refine visits_dirBlock h hok hne ih fun b l v hb => ?_
    split
    · exact visits_pure _
    · exact ih

theorem visits_findFreeEntrySpace {required : ℕ} :
    (fs.findFreeEntrySpace dir required fuel offset).Visits (fs.Clear d₀ use₀ j) s := by
  induction fuel generalizing offset with
  | zero => trivial
  | succ fuel ih =>
    rw [findFreeEntrySpace]
    refine visits_dirBlock h hok hne ih fun b l v hb => ?_
    split
    · exact visits_pure _
    · exact ih

theorem visits_unlinkLoop : (fs.unlinkLoop dir name fuel offset).Visits (fs.Clear d₀ use₀ j) s := by
  induction fuel generalizing offset with
  | zero => trivial
  | succ fuel ih =>
    rw [unlinkLoop]
    refine visits_dirBlock h hok hne ih fun b l v hb => ?_
    split
    · exact BlockM.Visits.bind (visits_writeLogged (h.clear_data hb hne)) rfl (visits_pure _)
    · exact ih

end Loops

theorem visits_addEntry {place : ℕ × ℕ} {fileType : ℕ} (hb : use place.1 = .data dir.ino l)
    (hne : dir.ino ≠ j) : (fs.addEntry place ino fileType name).Visits (fs.Clear d₀ use₀ j) s := by
  refine (visits_readBlock h fun x => ?_).bind rfl (visits_writeLogged (h.clear_data hb hne))
  rw [hb]
  exact fun heq => hne (BlockUse.data.inj heq).1

theorem visits_finish {a : α} (hw : fs.WellFormed) (h0 : 0 < ino)
    (hg : fs.inodeGroup ino < fs.groupsCount) (hne : ino ≠ j) :
    (do
      fs.writeInode ino m
      BlockM.commitLog
      pure a).Visits (fs.Clear d₀ use₀ j) s :=
  (visits_writeInode h hw h0 hg hne m).bind rfl ⟨trivial, trivial⟩

variable (hw : fs.WellFormed) (hv : fs.Volume s.disk use live) (hn : fs.NodeOk s.disk use live dir)
  (hdir : dir.isDir = true) (hne : dir.ino ≠ j)
include hw hv hn hdir hne

theorem visits_finddir : (fs.finddir dir name).Visits (fs.Clear d₀ use₀ j) s := by
  refine (visits_finddirLoop h hn.inode hne).bind
    (exec_finddirLoop hw.blockSize_pos hn.inode.mapReads (hn.dirOk hv hdir) hn.size) ?_
  cases hlook : (fs.dirEntries s.disk dir.inode).lookup name with
  | none => exact visits_pure _
  | some t =>
    rw [hn.dirEntries_eq hv hdir] at hlook
    obtain ⟨A, B, hAB, -⟩ := lookup_eq_some_iff.mp hlook
    have hlive := (hv.dirs _ hn.live (hn.kind.trans hdir)).live (name, t)
      (hAB ▸ mem_append_right _ mem_cons_self)
    obtain ⟨h0, hg⟩ := h.consistent.live_pos t hlive
    exact (visits_readInode h h0 hg).bind rfl (visits_map (visits_openNode h _ h0 hg))

theorem visits_create : (fs.create dir name).Visits (fs.Clear d₀ use₀ j) s := by
  refine (visits_findFreeEntrySpace h hn.inode hne).bind
    (exec_findFreeEntrySpace hw.blockSize_pos hn.inode.mapReads (hn.dirOk hv hdir) hn.size _) ?_
  cases hplace : fs.freeSpace s.disk dir.inode (entryLen (name.length % 256)) with
  | none => exact visits_pure _
  | some place =>
    obtain ⟨l, -, hmap, hfst, -⟩ := freeSpace_eq_some hplace
    have hb : use place.1 = .data dir.ino l := hfst ▸ hn.inode.use_mapOf hmap
    rcases exec_allocateInode_taken hw hv.consistent false with hnone | ⟨ino, s₁, hexec, ht⟩
    · exact (visits_allocateInode h hw false).bind hnone (visits_pure _)
    refine (visits_allocateInode h hw false).bind hexec ?_
    rw [if_neg ht.pos.ne']
    have hj := (ht.ne_of_live hv h.isLive).symm
    have h₁ := h.inodeTaken ht
    have h₂ := h₁.withInode (m := newInode 0x81A4 1 0 none) hw ht.pos ht.group inodeOk_newInode hj
    refine (visits_writeInode h₁ hw ht.pos ht.group hj _).bind rfl ?_
    refine (visits_addEntry h₂ hb hne).bind rfl ?_
    refine BlockM.Visits.bind (visits_commitLog trivial) rfl (visits_map ?_)
    exact visits_openNode (h₂.put hb) false ht.pos ht.group

theorem visits_mkdir : (fs.mkdir dir name).Visits (fs.Clear d₀ use₀ j) s := by
  obtain ⟨h0, hg⟩ := h.consistent.live_pos dir.ino hn.live
  rcases exec_allocateInode_taken hw hv.consistent true with hnone | ⟨ino, s₁, hexec, ht⟩
  · exact (visits_allocateInode h hw true).bind hnone (visits_pure _)
  refine (visits_allocateInode h hw true).bind hexec ?_
  rw [if_neg ht.pos.ne']
  have hj := (ht.ne_of_live hv h.isLive).symm
  have h₁ := h.inodeTaken ht
  rcases exec_allocateBlock_taken hw ht.consistent with hnone | ⟨b, s₂, hexec₂, hb⟩
  · exact (visits_allocateBlock h₁ hw).bind hnone (visits_pure _)
  refine (visits_allocateBlock h₁ hw).bind hexec₂ ?_
  rw [if_neg (hb .free).ne_zero]
  replace hb := hb (.data ino 0)
  obtain ⟨hnew, hofDir⟩ := ht.newDir hw hv hn hdir hb rfl
  have h₂ := h₁.blockTaken hb
  have h₃ := h₂.withInode (m := fs.newDirInode b) hw ht.pos ht.group
    (inodeOk_newInode_some hb.lt hb.free) hj
  have huse : Function.update use b (.data ino 0) b = .data ino 0 := Function.update_self ..
  have h₄ := h₃.put (v := newDirBlock fs.blockSize ino dir.ino) huse
  refine (visits_writeInode h₂ hw ht.pos ht.group hj _).bind rfl ?_
  refine BlockM.Visits.bind (visits_writeNow (h₃.clear_data huse hj)) rfl ?_
  have hok : fs.InodeOk _ (Function.update use b (.data ino 0)) dir.ino dir.inode :=
    hn.inode.congr (fun c hc => hofDir c (.inl hc)) fun c hc => update_use hb.free _ hc
  refine (visits_findFreeEntrySpace h₄ hok hne).bind (exec_findFreeEntrySpace hw.blockSize_pos hok.mapReads
    (hn.inode.dirOk_congr hofDir (hn.dirOk hv hdir)) hn.size _) ?_
  cases hplace : fs.freeSpace _ dir.inode (entryLen (name.length % 256)) with
  | none => exact visits_finish h₄ hw h0 hg hne
  | some place =>
    obtain ⟨l, -, hmap, hfst, -⟩ := freeSpace_eq_some hplace
    have hb' := hfst ▸ hok.use_mapOf hmap
    exact (visits_addEntry h₄ hb' hne).bind rfl (visits_finish (h₄.put hb') hw h0 hg hne)

theorem visits_unlink (hf : fs.DirsFit) (hnamed : ∀ x ∈ fs.entriesOf s.disk dir.ino, x.2 ≠ j) :
    (fs.unlink dir name).Visits (fs.Clear d₀ use₀ j) s := by
  obtain ⟨h0, hg⟩ := h.consistent.live_pos dir.ino hn.live
  have hloop := exec_unlinkLoop hw.blockSize_pos hn.inode.mapReads (hn.dirOk hv hdir) hn.size name
  refine (visits_bind _ _ _).mpr ⟨visits_unlinkLoop h hn.inode hne, fun r hr => ?_⟩
  rw [hr] at hloop
  generalize hr' : some r = r' at hloop
  cases hloop with
  | absent hnone =>
    cases hr'
    exact visits_pure _
  | @removed l es q prev pre e post hl hmap hhit hbefore =>
    cases hr'
    have hgone := hv.removeEntry hf hn hdir hl hmap hhit (fun y hy => hbefore y (Nat.zero_le _) hy) rfl
    obtain ⟨A, B, hA, -⟩ := hgone.entries
    have ht : e.inode ≠ j := hnamed (name, e.inode) (hA ▸ mem_append_right _ mem_cons_self)
    obtain ⟨ht0, htg⟩ := hv.consistent.live_pos _ hgone.target
    have h₁ : Guarded fs d₀ use₀ j use live (s.put (fs.mapOf s.disk dir.inode l) (removeEntry
        ((s.disk (fs.mapOf s.disk dir.inode l)).slice 0 fs.blockSize) q prev)).disk :=
      h.put (hn.inode.use_mapOf hmap)
    refine (visits_readInode h₁ ht0 htg).bind rfl ?_
    have hok := (hgone.volume.consistent.inodes _ hgone.target).writeLinks
    have hwrite := visits_writeInode h₁ hw ht0 htg ht
    -- the target may have no links, and the directory is written only when the target is one
    split_ifs
    · exact (hwrite _).bind rfl (visits_finish (h₁.withInode hw ht0 htg (hok _) ht) hw h0 hg hne)
    · exact visits_finish h₁ hw h0 hg hne
    · exact visits_finish h₁ hw ht0 htg ht
    · exact ⟨trivial, trivial⟩

end Dirs

/-! ## Runs -/

/-- No directory names the file `j`, and there is no object for it. -/
structure Hidden (fs : Ext4) (d : ℕ → Mem) (live : ℕ → Prop) (j : ℕ) (nodes : List Ext4Node) : Prop where
  unnamed : ∀ i, live i → isDirectoryMode (fs.inodeOf d i) = true → ∀ x ∈ fs.entriesOf d i, x.2 ≠ j
  unopened : ∀ n ∈ nodes, n.ino ≠ j

section Runs

variable {nodes nodes' : List Ext4Node} {use' : ℕ → BlockUse} {live' : ℕ → Prop} {op : Ext4Op}
  {r : Ext4Result}

theorem Hidden.unopened_set (h : fs.Hidden d live j nodes) {n : Ext4Node} (hn : n.ino ≠ j) (k : ℕ) :
    ∀ n' ∈ nodes.set k n, n'.ino ≠ j := by
  intro n' hn'
  rcases mem_or_eq_of_mem_set hn' with hn' | rfl
  · exact h.unopened n' hn'
  · exact hn

theorem Hidden.unopened_append (h : fs.Hidden d live j nodes) {n : Ext4Node} (hn : n.ino ≠ j) :
    ∀ n' ∈ nodes ++ [n], n'.ino ≠ j := by
  intro n' hn'
  rcases mem_append.mp hn' with hn' | hn'
  · exact h.unopened n' hn'
  · rwa [mem_singleton.mp hn']

theorem Hidden.step (h : fs.Hidden s.disk live j nodes) (hrun : fs.RunOk use live s nodes)
    (hj : live j) (hstep : CallStep fs use live s nodes op r nodes' s' use' live') :
    fs.Hidden s'.disk live' j nodes' := by
  have hmarked := hrun.volume.marked j hj
  have hnode : ∀ {k : ℕ} {n : Ext4Node}, nodes[k]? = some n →
      fs.NodeOk s.disk use live n ∧ n.ino ≠ j := by
    intro k n hk
    have hmem := mem_of_getElem? hk
    exact ⟨hrun.nodes n hmem, h.unopened n hmem⟩
  refine ⟨fun i hi hmode x hx => ?_, ?_⟩
  · cases hstep.dirs hrun hi hmode with
    | same hlive hdir hentries => exact h.unnamed i hlive hdir x (hentries ▸ hx)
    | added hop hk hdir heq hfresh hold hnew =>
      have hn := (hnode hk).1
      have hunnamed := h.unnamed i (heq ▸ hn.live) (heq ▸ hn.kind.trans hdir)
      rw [hold] at hunnamed
      rw [hnew] at hx
      rcases mem_append.mp hx with hx | hx
      · exact hunnamed x (mem_append_left _ hx)
      · rcases mem_cons.mp hx with rfl | hx
        · rintro rfl
          exact hfresh hmarked
        · exact hunnamed x (mem_append_right _ hx)
    | removed hop hk hdir heq hold hnew =>
      have hn := (hnode hk).1
      have hunnamed := h.unnamed i (heq ▸ hn.live) (heq ▸ hn.kind.trans hdir)
      rw [hold] at hunnamed
      rw [hnew] at hx
      rcases mem_append.mp hx with hx | hx
      · exact hunnamed x (mem_append_left _ hx)
      · exact hunnamed x (mem_append_right _ (mem_cons_of_mem _ hx))
    | fresh hop hk hdir hfresh hnew =>
      rw [hnew] at hx
      rcases mem_cons.mp hx with rfl | hx
      · rintro rfl
        exact hfresh hmarked
      · rw [mem_singleton.mp hx]
        exact (hnode hk).2
  · cases hstep with
    | idle => exact h.unopened
    | found hk hdir hentry =>
      have hn := (hnode hk).1
      exact h.unopened_append (h.unnamed _ hn.live (hn.kind.trans hdir) _ hentry)
    | created hk hdir hmade =>
      refine h.unopened_append ?_
      rintro rfl
      exact hmade.fresh hmarked
    | leaked hk hdir ht => exact h.unopened
    | @madeDir k ino b name dir s' hk hdir hmade =>
      exact h.unopened_set (show { dir with inode := addLink dir.inode }.ino ≠ j from (hnode hk).2) k
    | @unlinked k t name dir s' hk hdir hgone =>
      refine h.unopened_set ?_ _
      rw [afterUnlink_ino]
      exact (hnode hk).2
    | wrote hk hfile hwrote =>
      refine h.unopened_set ?_ _
      rw [hwrote.ino]
      exact (hnode hk).2

theorem Guarded.call (h : Guarded fs d₀ use₀ j use live s.disk) (hrun : fs.RunOk use live s nodes)
    (hhid : fs.Hidden s.disk live j nodes)
    (hstep : CallStep fs use live s nodes op r nodes' s' use' live') :
    Guarded fs d₀ use₀ j use' live' s'.disk := by
  have hcons := (hrun.step hstep).volume.consistent
  have hne : ∀ {k : ℕ} {n : Ext4Node}, nodes[k]? = some n → n.ino ≠ j :=
    fun hk => hhid.unopened _ (mem_of_getElem? hk)
  have htree : ∀ {b : ℕ}, use b = .tree j → (use b).isTable = false ∧ ∀ i l, use b ≠ .data i l := by
    intro b hb
    rw [hb]
    exact ⟨rfl, fun _ _ => BlockUse.noConfusion⟩
  cases hstep with
  | idle => exact h
  | found => exact h
  | created hk hdir hmade =>
    exact h.step hcons (.inl h.isLive) hmade.tables (hmade.inodes j h.isLive) (fun _ _ => rfl)
      fun b hb => hmade.blocks b (htree hb).1 ((htree hb).2 _)
  | leaked hk hdir ht => exact h.inodeTaken ht
  | madeDir hk hdir hmade =>
    refine h.step hcons (.inl h.isLive) hmade.tables (hmade.inodes j h.isLive (hne hk).symm)
      (fun b hb => update_use hmade.free _ hb)
      fun b hb => hmade.blocks b (htree hb).1 ?_ ((htree hb).2 _)
    rintro rfl
    rw [hmade.free] at hb
    cases hb
  | @unlinked k t name dir s' hk hdir hgone =>
    have hn := hrun.nodes dir (mem_of_getElem? hk)
    refine h.step hcons h.isLive hgone.tables ?_ (fun _ _ => rfl)
      fun b hb => hgone.blocks b (htree hb).1 ((htree hb).2 _)
    obtain ⟨A, B, hA, -⟩ := hgone.entries
    have ht : t ≠ j := hhid.unnamed _ hn.live (hn.kind.trans hdir) (name, t)
      (hA ▸ mem_append_right _ mem_cons_self)
    rw [hgone.inodes j h.isLive fun _ => (hne hk).symm, if_neg fun hand => ht hand.1.symm]
  | wrote hk hfile hwrote =>
    obtain ⟨h0, hg⟩ := h.consistent.live_pos j h.isLive
    refine h.step hcons h.isLive hwrote.tables (hwrote.others j h0 hg (hne hk).symm) hwrote.uses
      fun b hb => hwrote.keep b ?_ ?_ ?_ ?_ ?_
    all_goals simp [hb]

theorem visits_call (hw : fs.WellFormed) (hf : fs.DirsFit) (h : Guarded fs d₀ use₀ j use live s.disk)
    (hrun : fs.RunOk use live s nodes) (hhid : fs.Hidden s.disk live j nodes) (op : Ext4Op) :
    (fs.call op nodes).Visits (fs.Clear d₀ use₀ j) s := by
  have hon : ∀ (k : ℕ) (isDir : Bool) (other : Ext4Result)
      (f : Ext4Node → Ext4M (Ext4Result × List Ext4Node)),
      (∀ n, n.isDir = isDir → fs.NodeOk s.disk use live n → n.ino ≠ j →
        (f n).Visits (fs.Clear d₀ use₀ j) s) →
      (onNode nodes k isDir other f).Visits (fs.Clear d₀ use₀ j) s := by
    intro k isDir other f hf
    unfold onNode
    split
    · rename_i n hnode
      have hmem := mem_of_getElem? hnode
      split_ifs with hdir
      · exact hf n hdir (hrun.nodes n hmem) (hhid.unopened n hmem)
      · exact visits_pure _
    · exact visits_pure _
  have hv := hrun.volume
  cases op with
  | finddir k name =>
    exact hon k true _ _ fun dir hdir hn hne =>
      visits_map (visits_finddir h hw hv hn hdir hne)
  | create k name =>
    exact hon k true _ _ fun dir hdir hn hne => visits_map (visits_create h hw hv hn hdir hne)
  | mkdir k name =>
    exact hon k true _ _ fun dir hdir hn hne => visits_map (visits_mkdir h hw hv hn hdir hne)
  | unlink k name =>
    exact hon k true _ _ fun dir hdir hn hne => visits_map
      (visits_unlink h hw hv hn hdir hne hf (hhid.unnamed _ hn.live (hn.kind.trans hdir)))
  | read k offset size =>
    exact hon k false _ _ fun f _ hn hne => visits_map (visits_read h hn.inode hne offset size)
  | write k offset data =>
    exact hon k false _ _ fun f _ hn hne =>
      visits_map (visits_write hw h hn.live hn.inode hne offset data)

theorem visits_run (hw : fs.WellFormed) (hf : fs.DirsFit) (h : Guarded fs d₀ use₀ j use live s.disk)
    (hrun : fs.RunOk use live s nodes) (hhid : fs.Hidden s.disk live j nodes) (ops : List Ext4Op) :
    (fs.run ops nodes).Visits (fs.Clear d₀ use₀ j) s := by
  induction ops generalizing use live s nodes with
  | nil => exact visits_pure _
  | cons op ops ih =>
    obtain ⟨r, nodes', s', use', live', hexec, hstep⟩ := exec_call hw hf hrun.volume hrun.nodes op
    refine (visits_call hw hf h hrun hhid op).bind hexec ?_
    refine (visits_bind _ _ _).mpr ⟨?_, fun _ _ => visits_pure _⟩
    exact ih (h.call hrun hhid hstep) (hrun.step hstep) (hhid.step hrun h.isLive hstep)

end Runs

end Ext4

end KeonOS
